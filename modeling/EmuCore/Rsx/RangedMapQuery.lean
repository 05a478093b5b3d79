import EmuCore.Rsx.RangedMap

namespace EmuCore.Rsx.RangedMap

open List Function

open AddressRange (Range)

variable {V : Type} {size : BlockSize}

/-- Entries are in the block of their start, under different keys, and every block that an entry reaches
has a hint at or before the entry's block. -/
structure WellFormed (size : BlockSize) (m : RangedMap V) : Prop where
  placed : ∀ block, ∀ e ∈ m.data block, size.blockFor e.key = block
  distinct : ∀ block, ((m.data block).map Entry.key).Nodup
  hinted : ∀ block, ∀ e ∈ m.data block, ∀ reached, block ≤ reached ->
    reached ≤ size.blockFor e.range.last -> m.headBlock reached ≤ block

lemma wellFormed_empty : WellFormed size (empty : RangedMap V) where
  placed _ _ member := absurd member not_mem_nil
  distinct _ := nodup_nil
  hinted _ _ member := absurd member not_mem_nil

variable {block : List (Entry V)}

section Steps

variable {m : RangedMap V}

lemma foldl_lower (first block n start : Nat) (head : Nat -> Nat) :
    (List.range' start n).foldl (fun head b => update head b (min first (head b))) head block =
      if start ≤ block ∧ block < start + n then min first (head block) else head block := by
  induction n generalizing start head with
  | zero =>
    rw [if_neg (by omega)]
    rfl
  | succ n ih =>
    rw [range'_succ, foldl_cons, ih]
    by_cases here : block = start
    · subst here
      simp
    rw [update_of_ne here]
    congr 1
    simp only [eq_iff_iff]
    omega

lemma headBlock_broadcast (m : RangedMap V) (range : Range 32) (block : Nat) :
    (m.broadcastInsert size range).headBlock block =
      if size.blockFor range.start ≤ block ∧ block ≤ size.blockFor range.last then
        min (size.blockFor range.start) (m.headBlock block)
      else m.headBlock block := by
  refine (foldl_lower _ _ _ _ _).trans ?_
  congr 1
  simp only [eq_iff_iff]
  omega

lemma WellFormed.shrink (ok : WellFormed size m) {data : Nat -> List (Entry V)}
    (fewer : ∀ block, (data block).Sublist (m.data block)) : WellFormed size { m with data := data } where
  placed block e member := ok.placed block e ((fewer block).subset member)
  distinct block := (ok.distinct block).sublist ((fewer block).map Entry.key)
  hinted block e member := ok.hinted block e ((fewer block).subset member)

lemma update_sublist {data : Nat -> List (Entry V)} {block : Nat} {rest : List (Entry V)}
    (fewer : rest.Sublist (data block)) (b : Nat) :
    (update data block rest b).Sublist (data b) := by
  by_cases here : b = block
  · subst here
    rwa [update_self]
  · rw [update_of_ne here]

lemma WellFormed.eraseAddress (ok : WellFormed size m) (address : BitVec 32) :
    WellFormed size (m.eraseAddress size address) :=
  ok.shrink (update_sublist filter_sublist)

lemma WellFormed.erase (ok : WellFormed size m) (it : Iterator) : WellFormed size (m.erase it).1 := by
  unfold RangedMap.erase
  split
  next => exact ok
  next block _ =>
    have shrunk := ok.shrink (update_sublist (eraseIdx_sublist (m.data block) it.position))
    dsimp only
    split <;> exact shrunk

lemma reorder_perm {order : List Nat} (perm : order.Perm (List.range block.length)) :
    (reorder block order).Perm block := by
  have same : (List.range block.length).filterMap (fun position => block[position]?) = block := by
    clear perm
    induction block with
    | nil => rfl
    | cons e block ih =>
      rw [length_cons, range_succ_eq_map, filterMap_cons, filterMap_map]
      exact congrArg (e :: ·) ih
  have moved := perm.filterMap fun position => block[position]?
  rwa [same] at moved

lemma mem_insertOrAssign {entry e : Entry V} (member : e ∈ insertOrAssign block entry) : e = entry ∨ e ∈ block := by
  unfold insertOrAssign at member
  split at member
  next =>
    obtain ⟨old, inside, rfl⟩ := mem_map.mp member
    split
    next => exact .inl rfl
    next => exact .inr inside
  next => simpa [or_comm] using member

lemma keys_insertOrAssign (entry : Entry V) (distinct : (block.map Entry.key).Nodup) :
    ((insertOrAssign block entry).map Entry.key).Nodup := by
  unfold insertOrAssign
  split
  next =>
    have same : (block.map fun e => if e.key = entry.key then entry else e).map Entry.key = block.map Entry.key := by
      rw [map_map]
      refine map_congr_left fun e _ => ?_
      simp only [comp_apply]
      split
      next equal => exact equal.symm
      next => rfl
    rwa [same]
  next absent =>
    rw [map_append, nodup_append]
    refine ⟨distinct, nodup_singleton _, fun key old other new => ?_⟩
    obtain ⟨e, inside, rfl⟩ := mem_map.mp old
    rw [mem_singleton.mp new]
    exact fun same => absent ⟨e, inside, same⟩

lemma WellFormed.emplace (ok : WellFormed size m) {range : Range 32} {value : V} {order : List Nat}
    (perm : order.Perm (List.range (insertOrAssign (m.data (size.blockFor range.start)) ⟨range, value⟩).length)) :
    WellFormed size (m.emplace size range value order) := by
  have moved := reorder_perm perm
  have lower : ∀ block, (m.emplace size range value order).headBlock block ≤ m.headBlock block := by
    intro block
    refine (headBlock_broadcast m range block).trans_le ?_
    split
    next => exact min_le_right _ _
    next => exact le_rfl
  have here : (m.emplace size range value order).data (size.blockFor range.start) =
      reorder (insertOrAssign (m.data (size.blockFor range.start)) ⟨range, value⟩) order :=
    update_self _ _ _
  have elsewhere : ∀ block, block ≠ size.blockFor range.start ->
      (m.emplace size range value order).data block = m.data block :=
    fun block other => update_of_ne other _ _
  have old : ∀ block, ∀ e ∈ (m.emplace size range value order).data block,
      e = ⟨range, value⟩ ∧ block = size.blockFor range.start ∨ e ∈ m.data block := by
    intro block e member
    by_cases same : block = size.blockFor range.start
    · subst same
      rw [here] at member
      exact (mem_insertOrAssign (moved.subset member)).imp_left fun new => ⟨new, rfl⟩
    · rw [elsewhere block same] at member
      exact .inr member
  refine ⟨fun block e member => ?_, fun block => ?_, fun block e member reached first last => ?_⟩
  · rcases old block e member with ⟨rfl, rfl⟩ | stayed
    · rfl
    · exact ok.placed block e stayed
  · by_cases same : block = size.blockFor range.start
    · subst same
      rw [here]
      exact ((moved.map Entry.key).nodup_iff).mpr (keys_insertOrAssign _ (ok.distinct _))
    · rw [elsewhere block same]
      exact ok.distinct block
  · rcases old block e member with ⟨rfl, rfl⟩ | stayed
    · refine (headBlock_broadcast m range reached).trans_le ?_
      rw [if_pos ⟨first, last⟩]
      exact min_le_left _ _
    · exact (lower reached).trans (ok.hinted block e stayed reached first last)

lemma WellFormed.step {next : RangedMap V} {action : Action V} (ok : WellFormed size m)
    (move : step size m action = some next) : WellFormed size next := by
  cases action with
  | emplace range value order =>
    obtain ⟨perm, rfl⟩ := Option.ite_some_none_eq_some.mp move
    exact ok.emplace perm
  | eraseAddress address => cases move; exact ok.eraseAddress address
  | eraseIterator it =>
    obtain ⟨_, rfl⟩ := Option.ite_some_none_eq_some.mp move
    exact ok.erase it
  | clear => cases move; exact ok.shrink fun block => nil_sublist _

lemma wellFormed_of_reachable (reach : (system V size).Reachable m) : WellFormed size m := by
  refine reach.invariant (P := WellFormed size) ?_ fun m action next ok move => ok.step move
  rintro m rfl
  exact wellFormed_empty

end Steps

open Option

variable {m : RangedMap V} {it : Iterator}

def between (m : RangedMap V) (next last : Nat) : List (Entry V) :=
  (List.range' next (last + 1 - next)).flatMap m.data

def rest (m : RangedMap V) (it : Iterator) : List (Entry V) :=
  match it.current with
  | none => []
  | some block => (m.data block).drop it.position ++ m.between (block + 1) it.last

def Valid (m : RangedMap V) (it : Iterator) : Prop :=
  ∀ block, it.current = some block -> it.position < (m.data block).length ∧ block ≤ it.last

lemma between_of_lt {next last : Nat} (beyond : last < next) : m.between next last = [] := by
  rw [between, show last + 1 - next = 0 by omega]
  rfl

lemma between_cons {next last : Nat} (inside : next ≤ last) :
    m.between next last = m.data next ++ m.between (next + 1) last := by
  rw [between, show last + 1 - next = last + 1 - (next + 1) + 1 by omega, range'_succ, flatMap_cons,
    between]

lemma forwardScan_spec (last : Nat) {fuel next : Nat} (enough : last + 1 - next ≤ fuel) :
    m.rest (m.forwardScan last fuel next) = m.between next last ∧ m.Valid (m.forwardScan last fuel next) := by
  fun_induction forwardScan m last fuel next with
  | case1 | case4 =>
    rw [between_of_lt (by omega)]
    exact ⟨rfl, fun block at_block => by cases at_block⟩
  | case2 fuel next inside filled =>
    rw [between_cons inside]
    refine ⟨rfl, fun block at_block => ?_⟩
    cases at_block
    exact ⟨length_pos_of_ne_nil filled, inside⟩
  | case3 fuel next inside hollow ih =>
    rw [between_cons inside, not_not.mp hollow]
    exact ih (by omega)

lemma scanFrom_spec (m : RangedMap V) (last next : Nat) :
    m.rest (m.scanFrom last next) = m.between next last ∧ m.Valid (m.scanFrom last next) :=
  forwardScan_spec last le_rfl

variable {block : Nat}

section

variable (valid : m.Valid it) (at_block : it.current = some block)

include valid at_block

lemma rest_of_valid :
    ∃ entry, m.entryAt it = some entry ∧
      m.rest it = entry :: ((m.data block).drop (it.position + 1) ++ m.between (block + 1) it.last) := by
  have inside := (valid block at_block).1
  refine ⟨(m.data block)[it.position], ?_, ?_⟩
  · rw [entryAt, at_block]
    exact getElem?_eq_getElem inside
  · rw [rest, at_block]
    dsimp only
    rw [drop_eq_getElem_cons inside, cons_append]

lemma next_spec :
    m.rest (m.next it) = (m.data block).drop (it.position + 1) ++ m.between (block + 1) it.last ∧
      m.Valid (m.next it) := by
  obtain ⟨inside, before⟩ := valid block at_block
  unfold next
  rw [at_block]
  dsimp only
  split
  next more =>
    refine ⟨by rw [rest], fun other same => ?_⟩
    obtain rfl : block = other := some.inj same
    exact ⟨by dsimp only; omega, before⟩
  next done =>
    rw [drop_of_length_le (by omega), nil_append]
    exact m.scanFrom_spec it.last (block + 1)

lemma erase_spec :
    (m.erase it).1.rest (m.erase it).2 =
        (m.data block).drop (it.position + 1) ++ m.between (block + 1) it.last ∧
      (m.erase it).1.Valid (m.erase it).2 := by
  obtain ⟨inside, before⟩ := valid block at_block
  have later : RangedMap.between
      { m with data := update m.data block ((m.data block).eraseIdx it.position) } (block + 1) it.last =
        m.between (block + 1) it.last := by
    unfold between
    refine flatMap_congr fun other member => ?_
    rw [mem_range'_1] at member
    exact update_of_ne (by omega) _ _
  unfold RangedMap.erase
  rw [at_block]
  dsimp only
  split
  next more =>
    refine ⟨?_, fun other same => ?_⟩
    · rw [rest, at_block]
      dsimp only
      rw [later, update_self, eraseIdx_eq_take_drop_succ, drop_left' (by rw [length_take]; omega)]
    · obtain rfl : block = other := some.inj (at_block.symm.trans same)
      have length := length_eraseIdx_of_lt inside
      dsimp only
      rw [update_self]
      exact ⟨by omega, before⟩
  next done =>
    have length := length_eraseIdx_of_lt inside
    rw [drop_of_length_le (by omega), nil_append, ← later]
    exact scanFrom_spec _ it.last (block + 1)

end

lemma iterate_done (erases : List (Entry V) -> Entry V -> Bool) (fuel : Nat) (visited : List (Entry V))
    (done : it.current = none) : iterate erases fuel m it visited = some (m, visited) := by
  cases fuel <;> rw [iterate, if_pos done]

lemma iterate_spec (erases : List (Entry V) -> Entry V -> Bool) (visited : List (Entry V))
    (reach : (system V size).Reachable m) (valid : m.Valid it) :
    ∃ last, (system V size).Reachable last ∧ ∀ fuel ≥ (m.rest it).length,
      iterate erases fuel m it visited = some (last, visited ++ m.rest it) := by
  generalize count : (m.rest it).length = left
  induction left generalizing m it visited with
  | zero =>
    have done : it.current = none := by
      by_contra more
      obtain ⟨block, at_block⟩ := ne_none_iff_exists'.mp more
      obtain ⟨entry, _, left⟩ := rest_of_valid valid at_block
      rw [left] at count
      cases count
    refine ⟨m, reach, fun fuel _ => ?_⟩
    rw [iterate_done erases fuel visited done, rest, done, append_nil]
  | succ left ih =>
    have more : it.current ≠ none := by
      intro done
      rw [rest, done] at count
      cases count
    obtain ⟨block, at_block⟩ := ne_none_iff_exists'.mp more
    obtain ⟨entry, found, here⟩ := rest_of_valid valid at_block
    rw [here] at count ⊢
    have shorter := Nat.succ.inj count
    obtain ⟨after, moved, reached, valid, same, goes⟩ : ∃ after moved, (system V size).Reachable after ∧
        after.Valid moved ∧
        after.rest moved = (m.data block).drop (it.position + 1) ++ m.between (block + 1) it.last ∧
        ∀ fuel, iterate erases (fuel + 1) m it visited = iterate erases fuel after moved (visited ++ [entry]) := by
      by_cases choice : erases visited entry = true
      · obtain ⟨same, valid⟩ := erase_spec valid at_block
        have erased : (system V size).Reachable (m.erase it).1 :=
          reach.step (a := .eraseIterator it) (if_pos (by rw [found]; rfl))
        refine ⟨_, _, erased, valid, same, fun fuel => ?_⟩
        rw [iterate, if_neg more, found]
        simp only [choice, if_true]
      · obtain ⟨same, valid⟩ := next_spec valid at_block
        refine ⟨m, _, reach, valid, same, fun fuel => ?_⟩
        rw [iterate, if_neg more, found]
        simp only [choice, Bool.false_eq_true, if_false]
    obtain ⟨last, finished, ran⟩ := ih (visited ++ [entry]) reached valid (by rw [same]; exact shorter)
    refine ⟨last, finished, fun fuel enough => ?_⟩
    obtain ⟨fuel, rfl⟩ := Nat.exists_eq_add_of_le' (Nat.one_le_of_lt enough)
    rw [goes, ran fuel (by omega), same, append_assoc]
    rfl

section Query

variable (ok : WellFormed size m)

include ok

lemma mem_between {query : Range 32} {e : Entry V} (stored : e ∈ m.data block)
    (overlaps : e.range.overlaps query = true) :
    e ∈ m.between (min (size.blockFor query.start) (m.headBlock (size.blockFor query.start)))
      (size.blockFor query.last) := by
  simp only [Range.overlaps, Bool.and_eq_true, decide_eq_true_eq, BitVec.le_def] at overlaps
  have placed := ok.placed block e stored
  have before : block ≤ size.blockFor query.last := by
    rw [← placed]
    exact Nat.div_le_div_right overlaps.1
  have first : min (size.blockFor query.start) (m.headBlock (size.blockFor query.start)) ≤ block := by
    by_cases later : size.blockFor query.start ≤ block
    · exact (min_le_left _ _).trans later
    · refine (min_le_right _ _).trans (ok.hinted block e stored _ (by omega) ?_)
      exact Nat.div_le_div_right overlaps.2
  refine mem_flatMap.mpr ⟨block, ?_, stored⟩
  rw [mem_range'_1]
  omega

lemma between_nodup (next last : Nat) : ((m.between next last).map Entry.key).Nodup := by
  rw [between, map_flatMap, nodup_flatMap]
  refine ⟨fun block _ => ok.distinct block, ?_⟩
  refine List.Pairwise.imp ?_ (nodup_range' : (List.range' next (last + 1 - next)).Nodup)
  intro a b different key first second
  obtain ⟨e, inA, rfl⟩ := mem_map.mp first
  obtain ⟨other, inB, same⟩ := mem_map.mp second
  exact different (by rw [← ok.placed a e inA, ← ok.placed b other inB, same])

end Query

theorem query_complete (reach : (system V size).Reachable m) (query : Range 32)
    (erases : List (Entry V) -> Entry V -> Bool) :
    ∃ last visited, (system V size).Reachable last ∧
      (∀ fuel ≥ visited.length, iterate erases fuel m (m.beginRange size query) [] = some (last, visited)) ∧
      (∀ block, ∀ e ∈ m.data block, e.range.overlaps query = true -> e ∈ visited) ∧
      (∀ e ∈ visited, ∃ block, e ∈ m.data block) ∧ (visited.map Entry.key).Nodup := by
  have ok := wellFormed_of_reachable reach
  obtain ⟨same, valid⟩ := m.scanFrom_spec (size.blockFor query.last)
    (min (size.blockFor query.start) (m.headBlock (size.blockFor query.start)))
  obtain ⟨last, reached, ran⟩ := iterate_spec erases [] reach valid
  rw [same, nil_append] at ran
  refine ⟨last, _, reached, ran, ?_, ?_, between_nodup ok _ _⟩
  · intro block e stored overlaps
    exact mem_between ok stored overlaps
  · intro e member
    obtain ⟨block, _, stored⟩ := mem_flatMap.mp member
    exact ⟨block, stored⟩

-- The block size of the surface cache; an entry that reaches into the block of the query.
theorem query_complete_reaching :
    let size : BlockSize := ⟨0x400000, by decide, by decide⟩
    let query : Range 32 := ⟨0x400000, 0x400fff⟩
    ∃ m : RangedMap Nat, (system Nat size).Reachable m ∧ ∃ e ∈ m.data 0, e.range.overlaps query = true ∧
      ∃ last visited, e ∈ visited ∧ ∀ fuel ≥ visited.length,
        iterate (fun _ _ => true) fuel m (m.beginRange size query) [] = some (last, visited) := by
  intro size query
  have block : size.blockFor (0x3ff000 : BitVec 32) = 0 := by decide
  have inserted : insertOrAssign (empty.data 0) (⟨⟨0x3ff000, 0x400fff⟩, 1⟩ : Entry Nat) =
      [⟨⟨0x3ff000, 0x400fff⟩, 1⟩] := rfl
  have move : (system Nat size).step empty (.emplace ⟨0x3ff000, 0x400fff⟩ 1 [0]) =
      some (empty.emplace size ⟨0x3ff000, 0x400fff⟩ 1 [0]) := by
    simp only [system, step, block, inserted]
    exact if_pos (by decide)
  have reach := Transition.System.Reachable.step (.init rfl) move
  have stored : (⟨⟨0x3ff000, 0x400fff⟩, 1⟩ : Entry Nat) ∈
      (empty.emplace size ⟨0x3ff000, 0x400fff⟩ 1 [0]).data 0 := by
    simp only [RangedMap.emplace, block, update_self]
    exact List.Mem.head _
  obtain ⟨last, visited, _, loop, complete, _⟩ := query_complete reach query fun _ _ => true
  exact ⟨_, reach, _, stored, by decide, last, visited, complete 0 _ stored (by decide), loop⟩

end EmuCore.Rsx.RangedMap
