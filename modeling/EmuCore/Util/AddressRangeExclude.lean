import EmuCore.Util.AddressRangeMerge

namespace EmuCore.AddressRange

open List

variable {w : Nat}

def pieces (exclusion e : Range w) : RangeVector w :=
  (if e.start < exclusion.start then [⟨e.start, smaller e.last exclusion.prevAddress⟩] else []) ++
    (if exclusion.last < e.last then [⟨larger e.start exclusion.nextAddress, e.last⟩] else [])

variable {exclusion e : Range w}

lemma pieces_valid {piece : Range w} (ok : e.valid = true) (member : piece ∈ pieces exclusion e) :
    piece.valid = true := by
  rw [valid_iff] at ok ⊢
  simp only [pieces, mem_append] at member
  rcases member with head | tail
  · split at head
    · rename_i below
      obtain rfl := mem_singleton.mp head
      have less : e.start.toNat < exclusion.start.toNat := below
      simp only [smaller_toNat, Range.prevAddress, pred_toNat below]
      omega
    · cases head
  · split at tail
    · rename_i above
      obtain rfl := mem_singleton.mp tail
      have less : exclusion.last.toNat < e.last.toNat := above
      simp only [larger_toNat, Range.nextAddress, succ_toNat above]
      omega
    · cases tail

lemma pieces_covers (exclusionOk : exclusion.valid = true) (addr : BitVec w) :
    Covers (pieces exclusion e) addr ↔ e.Mem addr ∧ ¬ exclusion.Mem addr := by
  rw [valid_iff] at exclusionOk
  simp only [pieces, covers_append]
  by_cases below : e.start < exclusion.start <;> by_cases above : exclusion.last < e.last <;>
    simp only [below, above, if_true, if_false, covers_cons, covers_nil, or_false, false_or,
      mem_iff, smaller_toNat, larger_toNat, Range.prevAddress, Range.nextAddress]
  · rw [pred_toNat below, succ_toNat above]
    rw [BitVec.lt_def] at below above
    omega
  · rw [pred_toNat below]
    rw [BitVec.lt_def] at below above
    omega
  · rw [succ_toNat above]
    rw [BitVec.lt_def] at below above
    omega
  · rw [BitVec.lt_def] at below above
    simp only [false_iff, not_and]
    omega

lemma validEntries_pieces (ok : e.valid = true) :
    validEntries (pieces exclusion e) = pieces exclusion e :=
  filter_eq_self.mpr fun _ member => pieces_valid ok member

lemma pieces_subset {piece : Range w} (ok : e.valid = true) (member : piece ∈ pieces exclusion e) :
    e.start.toNat ≤ piece.start.toNat ∧ piece.last.toNat ≤ e.last.toNat := by
  have pieceOk := pieces_valid ok member
  rw [valid_iff] at ok pieceOk
  simp only [pieces, mem_append] at member
  rcases member with head | tail
  · split at head
    · obtain rfl := mem_singleton.mp head
      simp only [smaller_toNat] at pieceOk ⊢
      omega
    · cases head
  · split at tail
    · obtain rfl := mem_singleton.mp tail
      simp only [larger_toNat] at pieceOk ⊢
      omega
    · cases tail

lemma pieces_separated (exclusionOk : exclusion.valid = true) :
    (pieces exclusion e).Pairwise fun r other => ¬ r.Adjoins other := by
  rw [valid_iff] at exclusionOk
  simp only [pieces]
  by_cases below : e.start < exclusion.start <;> by_cases above : exclusion.last < e.last <;>
    simp [below, above]
  simp only [Range.Adjoins, smaller_toNat, larger_toNat, Range.prevAddress, Range.nextAddress,
    pred_toNat below, succ_toNat above]
  rw [BitVec.lt_def] at below above
  omega

lemma pieces_untouched (ok : e.valid = true) (exclusionOk : exclusion.valid = true)
    (free : e.overlaps exclusion = false) :
    pieces exclusion e = [e] := by
  rw [valid_iff] at ok exclusionOk
  simp only [Range.overlaps, Bool.and_eq_false_iff, decide_eq_false_iff_not, BitVec.le_def] at free
  by_cases below : e.start < exclusion.start
  next =>
    have before : e.last.toNat < exclusion.start.toNat := by
      rw [BitVec.lt_def] at below
      omega
    have stop : smaller e.last exclusion.prevAddress = e.last := by
      rw [← BitVec.toNat_inj, smaller_toNat, Range.prevAddress, pred_toNat below]
      omega
    have behind : ¬ exclusion.last < e.last := by
      rw [BitVec.lt_def]
      omega
    simp [pieces, below, behind, stop]
  next =>
    have above : exclusion.last < e.last := by
      rw [BitVec.lt_def] at below ⊢
      omega
    have start : larger e.start exclusion.nextAddress = e.start := by
      rw [← BitVec.toNat_inj, larger_toNat, Range.nextAddress, succ_toNat above]
      rw [BitVec.lt_def] at below
      omega
    simp [pieces, below, above, start]

-- The four ways an exclusion can meet an entry, as the loop tests them.
lemma pieces_overlapped (overlap : e.overlaps exclusion = true) :
    pieces exclusion e =
      (if exclusion.overlapsAddress e.start then [] else [⟨e.start, exclusion.prevAddress⟩]) ++
        (if exclusion.overlapsAddress e.last then [] else [⟨exclusion.nextAddress, e.last⟩]) := by
  simp only [Range.overlaps, Bool.and_eq_true, decide_eq_true_eq, BitVec.le_def] at overlap
  have head : exclusion.overlapsAddress e.start = true ↔ ¬ e.start < exclusion.start := by
    simp only [Range.overlapsAddress, Bool.and_eq_true, decide_eq_true_eq, BitVec.le_def,
      BitVec.lt_def]
    omega
  have tail : exclusion.overlapsAddress e.last = true ↔ ¬ exclusion.last < e.last := by
    simp only [Range.overlapsAddress, Bool.and_eq_true, decide_eq_true_eq, BitVec.le_def,
      BitVec.lt_def]
    omega
  have stop (below : e.start < exclusion.start) :
      smaller e.last exclusion.prevAddress = exclusion.prevAddress := by
    rw [← BitVec.toNat_inj, smaller_toNat, Range.prevAddress, pred_toNat below]
    omega
  have start (above : exclusion.last < e.last) :
      larger e.start exclusion.nextAddress = exclusion.nextAddress := by
    rw [← BitVec.toNat_inj, larger_toNat, Range.nextAddress, succ_toNat above]
    omega
  simp only [pieces, head, tail]
  by_cases below : e.start < exclusion.start <;> by_cases above : exclusion.last < e.last <;>
    simp [below, above, stop, start]

def ExcludeState (exclusion : Range w) (seen processed pushed : RangeVector w)
    (invalid : Option Nat) : Prop :=
  (validEntries (processed ++ pushed)).Perm ((validEntries seen).flatMap (pieces exclusion)) ∧
    ∀ i, invalid = some i -> ∃ old, processed[i]? = some old ∧ old.valid = false

variable {processed : RangeVector w}

lemma slot_append {i : Nat} {old : Range w} (r : Range w) (slot : processed[i]? = some old) :
    (processed ++ [r])[i]? = some old := by
  rw [getElem?_append_left (List.getElem?_eq_some_iff.mp slot).1]
  exact slot

variable {existing : Range w} {seen pushed : RangeVector w}

section

variable {entry : Range w} {invalid : Option Nat} (state : ExcludeState exclusion seen processed pushed invalid)

include state

lemma excludeState_replace
    (kept : validEntries [entry] = (validEntries [existing]).flatMap (pieces exclusion)) :
    ExcludeState exclusion (seen ++ [existing]) (processed ++ [entry]) pushed invalid := by
  obtain ⟨same, slots⟩ := state
  constructor
  · have moved : (processed ++ [entry] ++ pushed).Perm (processed ++ pushed ++ [entry]) := by
      rw [append_assoc, append_assoc]
      exact (perm_append_comm).append_left processed
    refine (moved.filter _).trans ?_
    rw [← validEntries, validEntries_append, validEntries_append seen, flatMap_append, kept]
    exact same.append_right _
  · intro i slot
    obtain ⟨old, at_i, bad⟩ := slots i slot
    exact ⟨old, slot_append entry at_i, bad⟩

lemma excludeState_slot (bad : entry.valid = false)
    (nothing : (validEntries [existing]).flatMap (pieces exclusion) = []) :
    ExcludeState exclusion (seen ++ [existing]) (processed ++ [entry]) pushed
      (some processed.length) := by
  have kept : validEntries [entry] = (validEntries [existing]).flatMap (pieces exclusion) := by
    rw [nothing]
    simp [validEntries, bad]
  have replaced := excludeState_replace state kept
  refine ⟨replaced.1, ?_⟩
  intro i slot
  obtain rfl : processed.length = i := by simpa using slot
  exact ⟨entry, by simp, bad⟩

end

lemma excludeState_reuse {head tail : Range w} {i : Nat} (ok : existing.valid = true)
    (state : ExcludeState exclusion seen processed pushed (some i)) (split : pieces exclusion existing = [head, tail]) :
    ExcludeState exclusion (seen ++ [existing]) (processed.set i tail ++ [head]) pushed none := by
  obtain ⟨same, slots⟩ := state
  obtain ⟨old, slot, bad⟩ := slots i rfl
  have headOk := pieces_valid ok (show head ∈ pieces exclusion existing by simp [split])
  have tailOk := pieces_valid ok (show tail ∈ pieces exclusion existing by simp [split])
  refine ⟨?_, by intro j none; cases none⟩
  have reused := set_invalid_perm slot bad tailOk
  have moved : (processed.set i tail ++ [head] ++ pushed).Perm
      (head :: (processed.set i tail ++ pushed)) := by
    simp only [append_assoc, singleton_append]
    exact perm_middle
  refine (moved.filter _).trans ?_
  rw [← validEntries, validEntries_append seen, flatMap_append]
  simp only [validEntries, filter_cons, ok, headOk, if_true, filter_nil,
    flatMap_singleton, split, filter_append]
  have grown := (reused.append_right (validEntries pushed)).cons head
  refine grown.trans ?_
  simp only [validEntries, filter_append] at same ⊢
  refine ((same.cons tail).cons head).trans ?_
  change ([head, tail] ++ _).Perm _
  exact perm_append_comm

lemma excludeState_push {head tail : Range w} (ok : existing.valid = true)
    (state : ExcludeState exclusion seen processed pushed none) (split : pieces exclusion existing = [head, tail]) :
    ExcludeState exclusion (seen ++ [existing]) (processed ++ [head]) (pushed ++ [tail]) none := by
  obtain ⟨same, -⟩ := state
  have headOk := pieces_valid ok (show head ∈ pieces exclusion existing by simp [split])
  have tailOk := pieces_valid ok (show tail ∈ pieces exclusion existing by simp [split])
  refine ⟨?_, by intro j none; cases none⟩
  have moved : (processed ++ [head] ++ (pushed ++ [tail])).Perm
      (processed ++ pushed ++ [head, tail]) := by
    simp only [append_assoc, singleton_append]
    refine List.Perm.append_left processed ?_
    have middle : (pushed ++ head :: [tail]).Perm (head :: (pushed ++ [tail])) := perm_middle
    simpa using middle.symm
  refine (moved.filter _).trans ?_
  rw [← validEntries, validEntries_append, validEntries_append seen, flatMap_append]
  simp only [validEntries, filter_cons, ok, headOk, tailOk, if_true, filter_nil,
    flatMap_singleton, split]
  exact same.append_right _

lemma excludeLoop_state (pos : 0 < w) (exclusionOk : exclusion.valid = true)
    (rest seen processed pushed : RangeVector w) (invalid : Option Nat)
    (state : ExcludeState exclusion seen processed pushed invalid) :
    (validEntries (excludeLoop exclusion processed invalid pushed rest)).Perm
      ((validEntries (seen ++ rest)).flatMap (pieces exclusion)) := by
  fun_induction excludeLoop exclusion processed invalid pushed rest generalizing seen with
  | case1 processed invalid pushed => simpa using state.1
  | case2 processed invalid pushed existing rest ok overlap head tail ih =>
    rw [append_cons seen]
    refine ih _ (excludeState_slot state (invalidated_invalid pos) ?_)
    simp [validEntries, ok, pieces_overlapped overlap, head, tail]
  | case3 processed invalid pushed existing rest ok overlap head tail ih
  | case4 processed invalid pushed existing rest ok overlap head tail ih =>
    rw [append_cons seen]
    refine ih _ (excludeState_replace state ?_)
    have alone : validEntries [existing] = [existing] := by simp [validEntries, ok]
    rw [alone, flatMap_singleton, ← validEntries_pieces ok]
    simp [pieces_overlapped overlap, head, tail]
  | case5 processed pushed existing rest ok overlap head tail i ih =>
    rw [append_cons seen]
    exact ih _ (excludeState_reuse ok state (by simp [pieces_overlapped overlap, head, tail]))
  | case6 processed pushed existing rest ok overlap head tail ih =>
    rw [append_cons seen]
    exact ih _ (excludeState_push ok state (by simp [pieces_overlapped overlap, head, tail]))
  | case7 processed invalid pushed existing rest ok free ih =>
    rw [append_cons seen]
    refine ih _ (excludeState_replace state ?_)
    simp [validEntries, ok, pieces_untouched ok exclusionOk (Bool.eq_false_iff.mpr free)]
  | case8 processed invalid pushed existing rest bad ih =>
    rw [append_cons seen]
    have ok := Bool.eq_false_iff.mpr bad
    exact ih _ (excludeState_slot state ok (by simp [validEntries, ok]))

lemma exclude_exact (data : RangeVector w) (pos : 0 < w) (exclusionOk : exclusion.valid = true) :
    (validEntries (exclude data exclusion)).Perm
      ((validEntries data).flatMap (pieces exclusion)) := by
  have final := excludeLoop_state pos exclusionOk data [] [] [] none
    ⟨by simp [validEntries], by intro i slot; cases slot⟩
  simpa [exclude, exclusionOk] using final

end EmuCore.AddressRange
