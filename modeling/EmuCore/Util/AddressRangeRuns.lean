import EmuCore.Util.AddressRangeExclude

namespace EmuCore.AddressRange

open List

variable {w : Nat}

inductive RangeCall (w : Nat)
  | merge (range : Range w)
  | exclude (range : Range w)

inductive Call (w : Nat)
  | merge (range : Range w)
  | mergeVector (other : RangeVector w)
  | exclude (range : Range w)
  | excludeVector (other : RangeVector w)

def RangeCall.apply (data : RangeVector w) : RangeCall w -> RangeVector w
  | .merge range => AddressRange.merge data range
  | .exclude range => AddressRange.exclude data range

def Call.apply (data : RangeVector w) : Call w -> RangeVector w
  | .merge range => AddressRange.merge data range
  | .mergeVector other => AddressRange.mergeVector data other
  | .exclude range => AddressRange.exclude data range
  | .excludeVector other => AddressRange.excludeVector data other

def Call.ranges : Call w -> List (RangeCall w)
  | .merge range => [.merge range]
  | .mergeVector other => other.map .merge
  | .exclude range => [.exclude range]
  | .excludeVector other => other.map .exclude

def RangeCall.ideal (covered : Set (BitVec w)) : RangeCall w -> Set (BitVec w)
  | .merge range => covered ∪ {addr | range.Mem addr}
  | .exclude range => covered \ {addr | range.Mem addr}

def Call.ideal (covered : Set (BitVec w)) : Call w -> Set (BitVec w)
  | .merge range => covered ∪ {addr | range.Mem addr}
  | .mergeVector other => covered ∪ {addr | Covers other addr}
  | .exclude range => covered \ {addr | range.Mem addr}
  | .excludeVector other => covered \ {addr | Covers other addr}

def Exact (data : RangeVector w) (covered : Set (BitVec w)) : Prop :=
  (∀ addr, Covers data addr ↔ addr ∈ covered) ∧ checkConsistency data = true

def NoWrap (covered : Set (BitVec w)) : Prop :=
  0#w ∈ covered -> umax ∈ covered -> ∀ addr, addr ∈ covered

def Separated (data : RangeVector w) : Prop :=
  (validEntries data).Pairwise fun r other => ¬ r.Adjoins other

variable {r : Range w}

lemma adjoins_comm {other : Range w} (adjoins : r.Adjoins other) : other.Adjoins r :=
  ⟨adjoins.2, adjoins.1⟩

variable {data : RangeVector w}

lemma Separated.apart (sep : Separated data) {other : Range w} (member : r ∈ validEntries data)
    (otherMember : other ∈ validEntries data) (different : r ≠ other) : ¬ r.Adjoins other := by
  have symmetric : Std.Symm fun r other : Range w => ¬ r.Adjoins other :=
    ⟨fun _ _ free adjoins => free (adjoins_comm adjoins)⟩
  exact List.Pairwise.forall sep member otherMember different

lemma mem_validEntries :
    r ∈ validEntries data ↔ r ∈ data ∧ r.valid = true := mem_filter

section

variable (sep : Separated data) (member : r ∈ validEntries data) {addr : BitVec w}

include sep member

-- The addresses next to an entry belong to no entry of a separated vector.
lemma beside_free (beside : addr.toNat = r.last.toNat + 1 ∨ addr.toNat + 1 = r.start.toNat) : ¬ Covers data addr := by
  rintro ⟨other, otherMember, mem⟩
  have ok := (valid_iff r).mp (mem_validEntries.mp member).2
  rw [mem_iff] at mem
  have different : other ≠ r := by
    rintro rfl
    omega
  refine sep.apart (mem_validEntries.mpr ⟨otherMember, Range.Mem.valid mem⟩) member different ?_
  exact ⟨by omega, by omega⟩

end

lemma full_of_ends (low : r.start = 0#w) (high : r.last = umax) (addr : BitVec w) : r.Mem addr := by
  have bound := addr.isLt
  rw [zero_iff] at low
  rw [umax_iff] at high
  rw [mem_iff]
  omega

lemma mem_zero (mem : r.Mem 0#w) : r.start = 0#w := by
  rw [mem_iff] at mem
  rw [zero_iff]
  simpa using mem.1

lemma mem_umax (mem : r.Mem umax) : r.last = umax := by
  have bound := r.last.isLt
  rw [mem_iff, umax_toNat] at mem
  rw [umax_iff]
  omega

-- A gap follows an entry before another one, also the entry at the bottom of the address space.
lemma gap_uncovered (other : Range w) (sep : Separated data) (member : r ∈ validEntries data)
    (before : r.last.toNat < other.start.toNat) : ¬ ∀ addr, Covers data addr :=
  fun all => beside_free sep member (.inl (succ_toNat (BitVec.lt_def.mpr before))) (all _)

lemma consistent_of_separated (pos : 0 < w) (sep : Separated data) (whole : NoWrap {addr | Covers data addr}) :
    checkConsistency data = true := by
  rw [checkConsistency_iff]
  refine (List.Pairwise.and_mem.mp sep).imp ?_
  rintro r other ⟨member, otherMember, free⟩
  obtain ⟨here, ok⟩ := mem_validEntries.mp member
  obtain ⟨otherHere, otherOk⟩ := mem_validEntries.mp otherMember
  rw [← Bool.not_eq_true, touches_iff pos ok otherOk]
  have order := (valid_iff r).mp ok
  have otherOrder := (valid_iff other).mp otherOk
  have size := two_le_size pos
  rintro (adjoins | ⟨top, bottom⟩ | ⟨top, bottom⟩)
  · exact free adjoins
  · have all := whole ⟨other, otherHere, bottom ▸ mem_start otherOk⟩ ⟨r, here, top ▸ mem_last ok⟩
    rw [umax_iff] at top
    rw [zero_iff] at bottom
    simp only [Range.Adjoins] at free
    exact gap_uncovered r sep otherMember (by omega) all
  · have all := whole ⟨r, here, bottom ▸ mem_start ok⟩ ⟨other, otherHere, top ▸ mem_last otherOk⟩
    rw [umax_iff] at top
    rw [zero_iff] at bottom
    simp only [Range.Adjoins] at free
    exact gap_uncovered other sep member (by omega) all

lemma separated_of_consistent (pos : 0 < w) (consistent : checkConsistency data = true) :
    Separated data ∧ NoWrap {addr | Covers data addr} := by
  rw [checkConsistency_iff] at consistent
  have untouched {r other : Range w} (member : r ∈ validEntries data)
      (otherMember : other ∈ validEntries data) (different : r ≠ other) :
      ¬ (r.Adjoins other ∨ r.Wraps other) := by
    have ok := (mem_validEntries.mp member).2
    have otherOk := (mem_validEntries.mp otherMember).2
    rw [← touches_iff pos ok otherOk, Bool.not_eq_true]
    have symmetric : Std.Symm fun x y : Range w =>
        x ∈ validEntries data ∧ y ∈ validEntries data ∧ x.touches y = false := by
      constructor
      rintro x y ⟨xMember, yMember, free⟩
      refine ⟨yMember, xMember, ?_⟩
      rw [touches_comm pos (mem_validEntries.mp yMember).2 (mem_validEntries.mp xMember).2]
      exact free
    have both := List.Pairwise.and_mem.mp consistent
    exact (List.Pairwise.forall both member otherMember different).2.2
  constructor
  · refine (List.Pairwise.and_mem.mp consistent).imp ?_
    rintro r other ⟨member, otherMember, free⟩ adjoins
    have touch := (touches_iff pos (mem_validEntries.mp member).2
      (mem_validEntries.mp otherMember).2).mpr (.inl adjoins)
    simp [free] at touch
  · rintro ⟨low, lowHere, lowMem⟩ ⟨high, highHere, highMem⟩ addr
    by_cases same : low = high
    · subst same
      exact ⟨low, lowHere, full_of_ends (mem_zero lowMem) (mem_umax highMem) addr⟩
    · exact (untouched (mem_validEntries.mpr ⟨lowHere, lowMem.valid⟩)
        (mem_validEntries.mpr ⟨highHere, highMem.valid⟩) same
        (.inr (.inr ⟨mem_umax highMem, mem_zero lowMem⟩))).elim

lemma Exact.whole {covered : Set (BitVec w)} (pos : 0 < w) (exact : Exact data covered) :
    NoWrap covered := by
  have whole := (separated_of_consistent pos exact.2).2
  rwa [show {addr | Covers data addr} = covered from Set.ext exact.1] at whole

lemma mem_empty (bad : r.valid = false) (addr : BitVec w) : ¬ r.Mem addr := fun mem => by
  have valid := mem.valid
  simp [bad] at valid

variable {newRange : Range w}

lemma touches_genuine {e : Range w} (pos : 0 < w) (sep : Separated data) (newOk : newRange.valid = true)
    (whole : NoWrap {addr | Covers data addr ∨ newRange.Mem addr}) (here : e ∈ data) (ok : e.valid = true)
    (touch : e.touches newRange = true) :
    e.Adjoins newRange := by
  have member := mem_validEntries.mpr ⟨here, ok⟩
  rcases (touches_iff pos ok newOk).mp touch with adjoins | wraps
  · exact adjoins
  have all : ∀ addr, Covers data addr ∨ newRange.Mem addr := by
    rcases wraps with ⟨top, bottom⟩ | ⟨top, bottom⟩
    · exact whole (.inr (bottom ▸ mem_start newOk)) (.inl ⟨e, here, top ▸ mem_last ok⟩)
    · exact whole (.inl ⟨e, here, bottom ▸ mem_start ok⟩) (.inr (top ▸ mem_last newOk))
  have bound := e.last.isLt
  have newBound := newRange.last.isLt
  rw [valid_iff] at ok newOk
  by_cases top : e.last = umax
  · by_cases bottom : e.start = 0#w
    · rw [umax_iff] at top
      rw [zero_iff] at bottom
      exact ⟨by omega, by omega⟩
    rw [zero_iff] at bottom
    have less : (0#w) < e.start := by
      rw [BitVec.lt_def, BitVec.toNat_ofNat, Nat.zero_mod]
      omega
    have edge := pred_toNat less
    have inNew := (all (e.start - 1#w)).resolve_left (beside_free sep member (by omega))
    rw [mem_iff, edge] at inNew
    exact ⟨by omega, by omega⟩
  · rw [umax_iff] at top
    have less : e.last < umax := by
      rw [BitVec.lt_def, umax_toNat]
      omega
    have edge := succ_toNat less
    have inNew := (all (e.last + 1#w)).resolve_left (beside_free sep member (.inl edge))
    rw [mem_iff, edge] at inNew
    exact ⟨by omega, by omega⟩

lemma adjoins_at {hull e : Range w} (hullOk : hull.valid = true) (ok : e.valid = true)
    (adjoins : hull.Adjoins e) : ∃ addr, hull.Mem addr ∧ ∀ x : Range w, x.Mem addr -> x.Adjoins e := by
  rw [valid_iff] at hullOk ok
  simp only [Range.Adjoins] at adjoins ⊢
  simp only [mem_iff]
  by_cases before : hull.last.toNat < e.start.toNat
  · exact ⟨hull.last, by omega, fun x mem => by omega⟩
  · by_cases behind : hull.start.toNat < e.start.toNat
    · exact ⟨e.start, by omega, fun x mem => by omega⟩
    · exact ⟨hull.start, by omega, fun x mem => by omega⟩

section

variable (pos : 0 < w) (sep : Separated data) (newOk : newRange.valid = true) (whole : NoWrap {addr | Covers data addr ∨ newRange.Mem addr})

include pos sep newOk whole

lemma merge_covers (addr : BitVec w) :
    Covers (merge data newRange) addr ↔ Covers data addr ∨ newRange.Mem addr := by
  obtain ⟨hull, -, same, cover⟩ := merge_exact pos newOk
    (fun e here ok touch => touches_genuine pos sep newOk whole here ok touch)
  rw [← covers_validEntries, covers_perm same, covers_cons, cover]
  constructor
  · rintro ((mem | ⟨e, member, mem⟩) | ⟨e, member, mem⟩)
    · exact .inr mem
    · exact .inl ⟨e, mem_of_mem_filter member, mem⟩
    · exact .inl ⟨e, mem_of_mem_filter member, mem⟩
  · rintro (⟨e, member, mem⟩ | mem)
    · cases touch : e.touches newRange
      · exact .inr ⟨e, mem_filter.mpr ⟨member, by simp [mem.valid, touch]⟩, mem⟩
      · exact .inl (.inr ⟨e, mem_filter.mpr ⟨member, by simp [mem.valid, touch]⟩, mem⟩)
    · exact .inl (.inl mem)

lemma merge_separated :
    Separated (merge data newRange) := by
  obtain ⟨hull, hullOk, same, cover⟩ := merge_exact pos newOk
    (fun e here ok touch => touches_genuine pos sep newOk whole here ok touch)
  refine (same.pairwise_iff fun free adjoins => free (adjoins_comm adjoins)).mpr ?_
  refine pairwise_cons.mpr ⟨?_, ?_⟩
  · -- Whatever the hull adjoins, one of the ranges it was made of adjoins too.
    intro e member adjoins
    obtain ⟨here, shape⟩ := mem_filter.mp member
    simp only [Bool.and_eq_true, Bool.not_eq_true'] at shape
    obtain ⟨addr, inHull, edge⟩ := adjoins_at hullOk shape.1 adjoins
    rcases (cover addr).mp inHull with inNew | ⟨x, touched, inX⟩
    · have touch := (touches_iff pos shape.1 newOk).mpr (.inl (adjoins_comm (edge _ inNew)))
      simp [shape.2] at touch
    obtain ⟨xHere, xShape⟩ := mem_filter.mp touched
    simp only [Bool.and_eq_true] at xShape
    refine sep.apart (mem_validEntries.mpr ⟨xHere, xShape.1⟩)
      (mem_validEntries.mpr ⟨here, shape.1⟩) ?_ (edge x inX)
    rintro rfl
    simp [shape.2] at xShape
  · have kept : (apart newRange data).Sublist (validEntries data) :=
      monotone_filter_right data fun e shape => by
        simp only [Bool.and_eq_true] at shape
        exact shape.1
    exact List.Pairwise.sublist kept sep

end

lemma exclude_covers {exclusion : Range w} (pos : 0 < w) (exclusionOk : exclusion.valid = true) (addr : BitVec w) :
    Covers (exclude data exclusion) addr ↔ Covers data addr ∧ ¬ exclusion.Mem addr := by
  rw [← covers_validEntries, covers_perm (exclude_exact data pos exclusionOk)]
  have flat : Covers ((validEntries data).flatMap (pieces exclusion)) addr ↔
      ∃ e ∈ validEntries data, Covers (pieces exclusion e) addr := by
    simp only [Covers, mem_flatMap]
    tauto
  rw [flat, ← covers_validEntries data]
  constructor
  · rintro ⟨e, member, cover⟩
    obtain ⟨mem, free⟩ := (pieces_covers exclusionOk addr).mp cover
    exact ⟨⟨e, member, mem⟩, free⟩
  · rintro ⟨⟨e, member, mem⟩, free⟩
    exact ⟨e, member, (pieces_covers exclusionOk addr).mpr ⟨mem, free⟩⟩

lemma exclude_separated {exclusion : Range w} (pos : 0 < w) (exclusionOk : exclusion.valid = true)
    (sep : Separated data) :
    Separated (exclude data exclusion) := by
  refine ((exclude_exact data pos exclusionOk).pairwise_iff
    fun free adjoins => free (adjoins_comm adjoins)).mpr ?_
  rw [pairwise_flatMap]
  refine ⟨fun e _ => pieces_separated exclusionOk, ?_⟩
  refine (List.Pairwise.and_mem.mp sep).imp ?_
  rintro r other ⟨member, otherMember, free⟩ x xPiece y yPiece adjoins
  have inside := pieces_subset (mem_validEntries.mp member).2 xPiece
  have otherInside := pieces_subset (mem_validEntries.mp otherMember).2 yPiece
  simp only [Range.Adjoins] at free adjoins
  omega

lemma range_call_exact {covered : Set (BitVec w)} (pos : 0 < w) (exact : Exact data covered) (call : RangeCall w) :
    Exact (call.apply data) (call.ideal covered) ↔ NoWrap (call.ideal covered) := by
  obtain ⟨same, consistent⟩ := exact
  obtain ⟨sep, -⟩ := separated_of_consistent pos consistent
  refine ⟨Exact.whole pos, fun whole => ?_⟩
  have cover : (∀ addr, Covers (call.apply data) addr ↔ addr ∈ call.ideal covered) ∧
      Separated (call.apply data) := by
    cases call with
    | merge range =>
      simp only [RangeCall.apply, RangeCall.ideal, Set.mem_union, Set.mem_ofPred_eq] at whole ⊢
      cases ok : range.valid with
      | false =>
        simp only [AddressRange.merge, ok, Bool.false_eq_true, if_false, mem_empty ok, or_false]
        exact ⟨same, sep⟩
      | true =>
        have union : NoWrap {addr | Covers data addr ∨ range.Mem addr} := by
          have sets : {addr | Covers data addr ∨ range.Mem addr} =
              covered ∪ {addr | range.Mem addr} := Set.ext fun addr => by simp [same]
          rw [sets]
          exact whole
        refine ⟨fun addr => ?_, merge_separated pos sep ok union⟩
        rw [merge_covers pos sep ok union, same]
    | exclude range =>
      simp only [RangeCall.apply, RangeCall.ideal, Set.mem_sdiff, Set.mem_ofPred_eq] at whole ⊢
      cases ok : range.valid with
      | false =>
        simp only [AddressRange.exclude, ok, Bool.false_eq_true, if_false, mem_empty ok, not_false_eq_true,
          and_true]
        exact ⟨same, sep⟩
      | true =>
        refine ⟨fun addr => ?_, exclude_separated pos ok sep⟩
        rw [exclude_covers pos ok, same]
  refine ⟨cover.1, consistent_of_separated pos cover.2 ?_⟩
  have ends : {addr | Covers (call.apply data) addr} = call.ideal covered := Set.ext cover.1
  rwa [ends]

lemma exact_empty : Exact ([] : RangeVector w) ∅ :=
  ⟨fun addr => by simp, rfl⟩

lemma range_calls_exact (pos : 0 < w) (calls : List (RangeCall w)) :
    (∀ done, done <+: calls ->
      Exact (done.foldl RangeCall.apply []) (done.foldl RangeCall.ideal ∅)) ↔
      ∀ done, done <+: calls -> NoWrap (done.foldl RangeCall.ideal ∅) := by
  constructor
  · exact fun exact done isPrefix => (exact done isPrefix).whole pos
  · intro whole done
    induction done using List.reverseRecOn with
    | nil => exact fun _ => exact_empty
    | append_singleton done call ih =>
      intro isPrefix
      have before := ih ((prefix_append done [call]).trans isPrefix)
      have safe := whole _ isPrefix
      simp only [foldl_append, foldl_cons, foldl_nil] at safe ⊢
      exact (range_call_exact pos before call).mpr safe

lemma call_apply_ranges (data : RangeVector w) (call : Call w) :
    call.apply data = call.ranges.foldl RangeCall.apply data := by
  cases call with
  | merge range => rfl
  | mergeVector other | excludeVector other =>
    rw [Call.ranges, foldl_map]
    rfl
  | exclude range => rfl

lemma ideal_merge_ranges (covered : Set (BitVec w)) (other : RangeVector w) :
    (other.map RangeCall.merge).foldl RangeCall.ideal covered =
      covered ∪ {addr | Covers other addr} := by
  induction other generalizing covered with
  | nil => simp
  | cons r rest ih =>
    rw [map_cons, foldl_cons, ih]
    ext addr
    simp [RangeCall.ideal, or_assoc]

lemma ideal_exclude_ranges (covered : Set (BitVec w)) (other : RangeVector w) :
    (other.map RangeCall.exclude).foldl RangeCall.ideal covered =
      covered \ {addr | Covers other addr} := by
  induction other generalizing covered with
  | nil =>
    ext addr
    simp
  | cons r rest ih =>
    rw [map_cons, foldl_cons, ih]
    ext addr
    simp [RangeCall.ideal, and_assoc]

lemma call_ideal_ranges (covered : Set (BitVec w)) (call : Call w) :
    call.ideal covered = call.ranges.foldl RangeCall.ideal covered := by
  cases call with
  | merge range => rfl
  | mergeVector other => exact (ideal_merge_ranges covered other).symm
  | exclude range => rfl
  | excludeVector other => exact (ideal_exclude_ranges covered other).symm

lemma calls_apply_ranges (data : RangeVector w) (calls : List (Call w)) :
    calls.foldl Call.apply data = (calls.flatMap Call.ranges).foldl RangeCall.apply data := by
  induction calls generalizing data with
  | nil => rfl
  | cons call rest ih =>
    rw [foldl_cons, flatMap_cons, foldl_append, ← call_apply_ranges, ih]

lemma calls_ideal_ranges (covered : Set (BitVec w)) (calls : List (Call w)) :
    calls.foldl Call.ideal covered = (calls.flatMap Call.ranges).foldl RangeCall.ideal covered := by
  induction calls generalizing covered with
  | nil => rfl
  | cons call rest ih =>
    rw [foldl_cons, flatMap_cons, foldl_append, ← call_ideal_ranges, ih]

theorem vector_exact_iff (pos : 0 < w) (calls : List (Call w)) :
    ((∀ done, done <+: calls.flatMap Call.ranges ->
      Exact (done.foldl RangeCall.apply []) (done.foldl RangeCall.ideal ∅)) ↔
        ∀ done, done <+: calls.flatMap Call.ranges -> NoWrap (done.foldl RangeCall.ideal ∅)) ∧
    ((∀ done, done <+: calls.flatMap Call.ranges -> NoWrap (done.foldl RangeCall.ideal ∅)) ->
      ∀ done, done <+: calls -> Exact (done.foldl Call.apply []) (done.foldl Call.ideal ∅)) := by
  have ranges := range_calls_exact pos (calls.flatMap Call.ranges)
  refine ⟨ranges, ?_⟩
  rintro whole done ⟨later, rfl⟩
  rw [calls_apply_ranges, calls_ideal_ranges]
  apply ranges.mpr whole
  rw [flatMap_append]
  exact prefix_append _ _

def lowRange : Range 16 := ⟨0x0000#16, 0x0010#16⟩

def highRange : Range 16 := ⟨0xfff0#16, 0xffff#16⟩

theorem vector_exact_low :
    (∀ done, done <+: [Call.merge lowRange].flatMap Call.ranges ->
      NoWrap (done.foldl RangeCall.ideal ∅)) ∧
    ∀ done, done <+: [Call.merge lowRange] ->
      Exact (done.foldl Call.apply []) (done.foldl Call.ideal ∅) := by
  have whole : ∀ done, done <+: [Call.merge lowRange].flatMap Call.ranges ->
      NoWrap (done.foldl RangeCall.ideal ∅) := by
    intro done isPrefix _ top
    rcases prefix_cons_iff.mp isPrefix with rfl | ⟨tail, rfl, short⟩
    · exact top.elim
    obtain rfl := prefix_nil.mp short
    rcases top with none | ⟨_, high⟩
    · exact none.elim
    · exact absurd high (by decide)
  exact ⟨whole, (vector_exact_iff (by decide) [Call.merge lowRange]).2 whole⟩

theorem vector_wraps :
    ¬ ∀ calls : List (Call 16), ∀ done, done <+: calls ->
      Exact (done.foldl Call.apply []) (done.foldl Call.ideal ∅) := by
  intro claim
  have exact := claim [.merge lowRange, .merge highRange] _ (prefix_refl _)
  have covered : Covers ([Call.merge lowRange, .merge highRange].foldl Call.apply []) 0x8000#16 :=
    ⟨⟨0x0000#16, 0xffff#16⟩, by decide, by decide, by decide⟩
  rcases (exact.1 _).mp covered with (none | ⟨_, low⟩) | ⟨high, _⟩
  · exact none.elim
  · exact absurd low (by decide)
  · exact absurd high (by decide)

end EmuCore.AddressRange
