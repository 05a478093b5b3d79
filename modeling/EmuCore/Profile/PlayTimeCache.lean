import EmuCore.Profile.PlayTime

namespace EmuCore.Profile

open EmuCore.Util List

variable {strings : Strings}

lemma duration_cons (key : Bytes) (entry : PlayerPlayTimeDelta) (rest : List PlayerPlayTimeDelta) :
    duration strings key (entry :: rest) =
      (if buildCacheKey strings entry = key then entry.durationMs else 0) + duration strings key rest := by
  rw [duration, filter_cons]
  by_cases same : buildCacheKey strings entry = key
  · simp [same, duration]
  · simp [same, duration]

@[simp] lemma duration_nil (key : Bytes) : duration strings key [] = 0 := rfl

lemma key_mergeInto (existing entry : PlayerPlayTimeDelta) :
    buildCacheKey strings (mergeInto strings existing entry) = buildCacheKey strings existing := rfl

lemma duration_addEntry (key : Bytes) (entry : PlayerPlayTimeDelta) (entries : List PlayerPlayTimeDelta) :
    duration strings key (addEntry strings entry entries) =
      duration strings key entries + if buildCacheKey strings entry = key then entry.durationMs else 0 := by
  induction entries with
  | nil => rw [addEntry, duration_cons, duration_nil, Int.add_comm]
  | cons first rest ih =>
    rw [addEntry]
    split
    next same =>
      rw [duration_cons, duration_cons, key_mergeInto, same]
      split
      next =>
        have sum : (mergeInto strings first entry).durationMs = first.durationMs + entry.durationMs := rfl
        omega
      next => omega
    next =>
      rw [duration_cons, duration_cons, ih]
      omega

lemma duration_addAll (key : Bytes) (entries current : List PlayerPlayTimeDelta) :
    duration strings key (entries.foldl (fun current entry => addEntry strings entry current) current) =
      duration strings key current + duration strings key entries := by
  induction entries generalizing current with
  | nil => simp
  | cons entry rest ih =>
    rw [foldl_cons, ih, duration_addEntry, duration_cons]
    omega

structure Clean (strings : Strings) (entries : List PlayerPlayTimeDelta) : Prop where
  distinct : (entries.map (buildCacheKey strings)).Nodup
  valid : ∀ entry ∈ entries, isValid strings entry = true

lemma clean_nil : Clean strings [] := ⟨nodup_nil, by simp⟩

variable {entries : List PlayerPlayTimeDelta} {entry : PlayerPlayTimeDelta}

lemma mem_keys_put {key : Bytes} (member : key ∈ (put strings entry entries).map (buildCacheKey strings)) :
    key = buildCacheKey strings entry ∨ key ∈ entries.map (buildCacheKey strings) := by
  induction entries with
  | nil => exact .inl (by simpa [put] using member)
  | cons first rest ih =>
    rw [put] at member
    split at member
    next same =>
      rcases mem_cons.mp member with here | later
      · exact .inl here
      · exact .inr (mem_cons_of_mem _ later)
    next =>
      rcases mem_cons.mp member with here | later
      · exact .inr (here ▸ mem_cons_self)
      · exact (ih later).imp_right (mem_cons_of_mem _)

lemma mem_put {other : PlayerPlayTimeDelta} (member : other ∈ put strings entry entries) :
    other = entry ∨ other ∈ entries := by
  induction entries with
  | nil => exact .inl (mem_singleton.mp member)
  | cons first rest ih =>
    rw [put] at member
    split at member
    next =>
      rcases mem_cons.mp member with here | later
      · exact .inl here
      · exact .inr (mem_cons_of_mem _ later)
    next =>
      rcases mem_cons.mp member with here | later
      · exact .inr (here ▸ mem_cons_self)
      · exact (ih later).imp_right (mem_cons_of_mem _)

lemma Clean.put (ok : isValid strings entry = true) (clean : Clean strings entries) :
    Clean strings (put strings entry entries) := by
  refine ⟨?_, fun other member => ?_⟩
  · have distinct := clean.distinct
    clear clean
    induction entries with
    | nil => exact nodup_singleton _
    | cons first rest ih =>
      obtain ⟨fresh, distinct⟩ := nodup_cons.mp distinct
      rw [Profile.put]
      split
      next same => exact nodup_cons.mpr ⟨same ▸ fresh, distinct⟩
      next differs =>
        refine nodup_cons.mpr ⟨fun member => ?_, ih distinct⟩
        rcases mem_keys_put member with same | old
        · exact differs same
        · exact fresh old
  · rcases mem_put member with rfl | old
    · exact ok
    · exact clean.valid other old

lemma isValid_stored (entry : PlayerPlayTimeDelta) : isValid strings (stored strings entry) = isValid strings entry :=
  rfl

lemma clean_readEntries (raw : List PlayerPlayTimeDelta) : Clean strings (readEntries strings raw) := by
  have loop : ∀ (raw entries : List PlayerPlayTimeDelta), Clean strings entries -> Clean strings (raw.foldl
      (fun entries entry => if isValid strings entry then put strings (stored strings entry) entries else entries)
      entries) := by
    intro raw
    induction raw with
    | nil => exact fun _ clean => clean
    | cons entry rest ih =>
      intro entries clean
      rw [foldl_cons]
      refine ih _ ?_
      split
      next ok => exact clean.put (isValid_stored entry ▸ ok)
      next => exact clean
  exact loop raw [] clean_nil

lemma Clean.addEntry (ok : isValid strings entry = true) (clean : Clean strings entries) :
    Clean strings (addEntry strings entry entries) := by
  have keys : (Profile.addEntry strings entry entries).map (buildCacheKey strings) =
      (Profile.put strings entry entries).map (buildCacheKey strings) := by
    clear clean
    induction entries with
    | nil => rfl
    | cons first rest ih =>
      rw [Profile.addEntry, Profile.put]
      split
      next same => rw [map_cons, map_cons, key_mergeInto, same]
      next => rw [map_cons, map_cons, ih]
  refine ⟨keys ▸ (clean.put ok).distinct, ?_⟩
  have valid := clean.valid
  clear clean keys
  induction entries with
  | nil => simpa [Profile.addEntry] using ok
  | cons first rest ih =>
    obtain ⟨here, later⟩ := forall_mem_cons.mp valid
    rw [Profile.addEntry]
    split
    next =>
      refine forall_mem_cons.mpr ⟨?_, later⟩
      simp only [isValid, mergeInto, Bool.and_eq_true, decide_eq_true_eq] at ok here ⊢
      exact ⟨here.1, decide_eq_true (Int.add_pos here.2 ok.2)⟩
    next => exact forall_mem_cons.mpr ⟨here, ih later⟩

lemma clean_addAll {current : List PlayerPlayTimeDelta} (valid : ∀ entry ∈ entries, isValid strings entry = true)
    (clean : Clean strings current) :
    Clean strings (entries.foldl (fun current entry => addEntry strings entry current) current) := by
  induction entries generalizing current with
  | nil => exact clean
  | cons entry rest ih =>
    obtain ⟨here, later⟩ := forall_mem_cons.mp valid
    exact ih later (clean.addEntry here)

lemma put_new (fresh : buildCacheKey strings entry ∉ entries.map (buildCacheKey strings)) :
    put strings entry entries = entries ++ [entry] := by
  induction entries with
  | nil => rfl
  | cons first rest ih =>
    rw [map_cons, mem_cons, not_or] at fresh
    rw [put, if_neg (Ne.symm fresh.1), ih fresh.2, cons_append]

lemma readEntries_writeEntries (clean : Clean strings entries) :
    readEntries strings (writeEntries strings entries) = entries.map (stored strings) := by
  have loop : ∀ rest before : List PlayerPlayTimeDelta, Clean strings (before ++ rest) -> rest.foldl
      (fun entries entry => if isValid strings entry then put strings (stored strings entry) entries else entries)
      (before.map (stored strings)) = (before ++ rest).map (stored strings) := by
    intro rest
    induction rest with
    | nil => intro before _; simp
    | cons entry rest ih =>
      intro before clean
      have ok := clean.valid entry (by simp)
      have fresh : buildCacheKey strings (stored strings entry) ∉
          (before.map (stored strings)).map (buildCacheKey strings) := by
        have distinct := clean.distinct
        rw [map_append, map_cons, nodup_append] at distinct
        intro member
        rw [map_map] at member
        exact distinct.2.2 _ member _ mem_cons_self rfl
      have next : before.map (stored strings) ++ [stored strings entry] = (before ++ [entry]).map (stored strings) := by
        rw [map_append]
        rfl
      have whole : before ++ entry :: rest = (before ++ [entry]) ++ rest := by rw [append_assoc]; rfl
      rw [foldl_cons, if_pos ok, put_new fresh, next, whole]
      exact ih _ (whole ▸ clean)
  have all : writeEntries strings entries = entries := filter_eq_self.mpr clean.valid
  rw [all]
  exact loop entries [] clean

lemma duration_stored (key : Bytes) (entries : List PlayerPlayTimeDelta) :
    duration strings key (entries.map (stored strings)) = duration strings key entries := by
  induction entries with
  | nil => rfl
  | cons entry rest ih =>
    rw [map_cons, duration_cons, duration_cons, ih]
    rfl

lemma pending_written (clean : Clean strings entries) (key : Bytes) (cloud : Bytes -> Int) :
    pending strings key ⟨writeEntries strings entries, cloud⟩ = duration strings key entries := by
  rw [pending, readEntries_writeEntries clean, duration_stored]

lemma duration_nonneg (clean : Clean strings entries) (key : Bytes) :
    0 ≤ duration strings key entries := by
  refine sum_nonneg fun value member => ?_
  obtain ⟨entry, among, rfl⟩ := mem_map.mp member
  have ok := clean.valid entry (mem_filter.mp among).1
  simp only [isValid, Bool.and_eq_true, decide_eq_true_eq] at ok
  exact ok.2.le

end EmuCore.Profile
