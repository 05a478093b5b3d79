import EmuCore.Tar.Archive

namespace EmuCore.Tar

open EmuCore.Util List Option

def Spellable (name : Bytes) : Prop := name ≠ [] ∧ 0 ∉ name ∧ name.length ≤ 255

lemma zero_not_mem_untilNul (text : Bytes) : 0 ∉ untilNul text := by
  intro member
  have other := all_eq_true.mp all_takeWhile 0 member
  simp at other

lemma length_untilNul_field (header : Bytes) (offset size : Nat) :
    (untilNul (field header offset size)).length ≤ size :=
  (takeWhile_sublist _).length_le.trans (length_take_le _ _)

lemma spellable_of_header {header : Bytes} (named : (readHeader header).filename ≠ []) :
    Spellable (readHeader header).filename := by
  refine ⟨named, ?_, ?_⟩
  · rw [readHeader, mem_append, not_or]
    exact ⟨zero_not_mem_untilNul _, zero_not_mem_untilNul _⟩
  have first := length_untilNul_field header 345 155
  have second := length_untilNul_field header 0 100
  rw [readHeader, length_append]
  omega

variable {offset : Nat}

section

variable {file : Bytes} {map : FileMap} (known : ∀ entry ∈ map.entries, Spellable entry.1)

include known

lemma emplaceSingleEntry_spellable :
    ∀ entry ∈ (emplaceSingleEntry file offset map).1.entries, Spellable entry.1 := by
  unfold emplaceSingleEntry
  dsimp only
  split
  next =>
    split
    next => exact known
    next size _ =>
      split
      next accepted =>
        intro entry member
        rcases SortedMap.insertEntry_mem member with rfl | old
        · exact spellable_of_header accepted.1
        · exact known entry old
      next => exact known
  next => exact known

lemma scan_spellable :
    ∀ entry ∈ (scan file offset map).entries, Spellable entry.1 := by
  fun_induction scan file offset map with
  | case1 offset map _ _ ih => exact ih (emplaceSingleEntry_spellable known)
  | case2 => exact known

end

lemma perform_actions {outcome : Outcome} {done actions : List Action} {action : Action}
    (member : action ∈ (perform outcome done actions).2) : action ∈ done ∨ action ∈ actions := by
  induction actions generalizing done with
  | nil => exact .inl member
  | cons first rest ih =>
    have own (tried : action ∈ done ++ [first]) : action ∈ done ∨ action ∈ first :: rest := by
      rcases mem_append.mp tried with old | new
      · exact .inl old
      · exact .inr (mem_singleton.mp new ▸ mem_cons_self)
    rw [perform] at member
    split at member
    next =>
      rcases ih member with tried | later
      · exact own tried
      · exact .inr (mem_cons_of_mem _ later)
    next => exact own member

lemma setTimes_path {header : Header} {result : Bytes} {action : Action} (member : action ∈ setTimes header result) :
    action.path = result := by
  rw [setTimes] at member
  split at member
  next => rw [mem_singleton.mp member, Action.path]
  next => cases member

variable {name : Bytes}

lemma written_path {header : Header} {result : Bytes} {first action : Action} (own : first.path = result)
    (member : action ∈ if shouldIgnore name then [] else first :: setTimes header result) : action.path = result := by
  split at member
  next => cases member
  rcases mem_cons.mp member with rfl | times
  · exact own
  · exact setTimes_path times

lemma entryActions_path {prefixPath result : Bytes} {header : Header} {actions : List Action} :
    entryActions prefixPath name header result = some actions -> ∀ action ∈ actions, action.path = result := by
  fun_cases entryActions prefixPath name header result with
  | case1 =>
    rintro ⟨⟩ action member
    rcases mem_append.mp member with parents | others
    · split at parents
      next => rw [mem_singleton.mp parents, Action.path]
      next => cases parents
    · exact written_path rfl others
  | case2 =>
    rintro ⟨⟩ action member
    exact written_path rfl member
  | case3 => rintro ⟨⟩

section Entries

variable {host : Vfs.Host} {root : Vfs.Directory} {prefixPath : Bytes} {isVfs : Bool} {outcome : Outcome}

lemma extractEntries_paths {entries : List (Bytes × Header)} {done : List Action} {inside : Bytes -> Prop}
    (before : ∀ action ∈ done, inside action.path)
    (targets : ∀ entry ∈ entries, ∀ path, target host root prefixPath isVfs entry.1 = some path -> inside path) :
    ∀ action ∈ (extractEntries host root prefixPath isVfs outcome done entries).2, inside action.path := by
  induction entries generalizing done with
  | nil => exact before
  | cons entry rest ih =>
    obtain ⟨name, header⟩ := entry
    obtain ⟨here, later⟩ := forall_mem_cons.mp targets
    rw [extractEntries]
    split
    next => exact before
    next actions found =>
      obtain ⟨path, resolved, some_actions⟩ := bind_eq_some_iff.mp found
      have after : ∀ action ∈ (perform outcome done actions).2, inside action.path := by
        intro action member
        rcases perform_actions member with old | new
        · exact before action old
        · rw [entryActions_path some_actions action new]
          exact here path resolved
      dsimp only
      split
      next => exact ih after later
      next => exact after

end Entries

def padded (size : Nat) (text : Bytes) : Bytes := text ++ replicate (size - text.length) 0

-- No owner, an empty file, no time, an ordinary file.
def plainFile : Bytes :=
  replicate 24 0 ++ replicate 11 0x30 ++ replicate 21 0 ++ [0x30] ++ replicate 100 0 ++
    "ustar".toUTF8.toList ++ replicate 83 0

def archiveOf (name : Bytes) : Bytes :=
  padded 100 (name.drop (name.length - 100)) ++
    (plainFile ++ (padded 155 (name.take (name.length - 100)) ++ replicate 12 0))

variable {size : Nat}

lemma length_padded {text : Bytes} (short : text.length ≤ size) : (padded size text).length = size := by
  rw [padded, length_append, length_replicate]
  omega

lemma untilNul_padded {text : Bytes} (clean : 0 ∉ text) : untilNul (padded size text) = text := by
  have all : ∀ b ∈ text, decide (b ≠ 0) = true := fun b member => decide_eq_true fun zero => clean (zero ▸ member)
  rw [padded, untilNul, takeWhile_append_of_pos all]
  cases size - text.length with
  | zero => simp
  | succ n => simp [replicate_succ]

lemma toList_ustar : "ustar".toUTF8.toList = [0x75, 0x73, 0x74, 0x61, 0x72] := by decide +kernel

lemma length_plainFile : plainFile.length = 245 := by
  rw [plainFile, toList_ustar]
  rfl

lemma field_first {part : Bytes} (length : part.length = size) (rest : Bytes) :
    field (part ++ rest) 0 size = part := by
  rw [field, drop_zero, take_left' length]

lemma field_later {part : Bytes} {skipped : Nat} (length : part.length = skipped) (rest : Bytes)
    (offset size : Nat) : field (part ++ rest) (offset + skipped) size = field rest offset size := by
  rw [field, add_comm, ← drop_drop, drop_left' length, field]

lemma field_inside {part : Bytes} (inside : offset + size ≤ part.length) (rest : Bytes) :
    field (part ++ rest) offset size = field part offset size := by
  rw [field, drop_append_of_le_length (by omega), take_append_of_le_length (by rw [length_drop]; omega),
    field]

lemma readHeader_archiveOf (spellable : Spellable name) :
    readHeader (archiveOf name) =
      { filename := name, filetype := 0x30, size := some 0, mtime := none, isUstar := true } := by
  obtain ⟨-, clean, short⟩ := spellable
  have first : (padded 100 (name.drop (name.length - 100))).length = 100 :=
    length_padded (by rw [length_drop]; omega)
  have second : (padded 155 (name.take (name.length - 100))).length = 155 :=
    length_padded (by rw [length_take]; omega)
  have front : untilNul (field (archiveOf name) 345 155) = name.take (name.length - 100) := by
    rw [archiveOf, field_later first, field_later length_plainFile, field_first second,
      untilNul_padded fun member => clean (mem_of_mem_take member)]
  have back : untilNul (field (archiveOf name) 0 100) = name.drop (name.length - 100) := by
    rw [archiveOf, field_first first, untilNul_padded fun member => clean (mem_of_mem_drop member)]
  have size : field (archiveOf name) 124 12 = field plainFile 24 12 := by
    rw [archiveOf, field_later first, field_inside (by rw [length_plainFile]; omega)]
  have time : field (archiveOf name) 136 12 = field plainFile 36 12 := by
    rw [archiveOf, field_later first, field_inside (by rw [length_plainFile]; omega)]
  have magic : field (archiveOf name) 257 5 = field plainFile 157 5 := by
    rw [archiveOf, field_later first, field_inside (by rw [length_plainFile]; omega)]
  have type : (archiveOf name).getD 156 0 = plainFile.getD 56 0 := by
    rw [archiveOf, getD_eq_getElem?_getD, getElem?_append_right (by rw [first]; decide), first,
      getElem?_append_left (by rw [length_plainFile]; decide), ← getD_eq_getElem?_getD]
  have empty : octalTextToU64 (field plainFile 24 12) = some 0 := rfl
  have never : octalTextToU64 (field plainFile 36 12) = none := rfl
  have plain : plainFile.getD 56 0 = 0x30 := rfl
  have ustar : decide (field plainFile 157 5 = "ustar".toUTF8.toList) = true := by
    rw [plainFile, toList_ustar]
    rfl
  rw [readHeader, front, back, size, time, magic, type, take_append_drop, empty, never, plain, ustar]

lemma length_archiveOf (short : name.length ≤ 255) : (archiveOf name).length = headerSize := by
  rw [archiveOf, length_append, length_append, length_append, length_plainFile, length_replicate,
    length_padded (by rw [length_drop]; omega), length_padded (by rw [length_take]; omega), headerSize]

lemma scan_archiveOf (spellable : Spellable name) :
    (scan (archiveOf name) 0 ∅).entries =
      [(name, { filename := name, filetype := 0x30, size := some 0, mtime := none, isUstar := true })] := by
  have length := length_archiveOf spellable.2.2
  have whole : read (archiveOf name) 0 headerSize = some (archiveOf name) := by
    simp [Util.read, ← length]
  have found : headerAt (archiveOf name) 0 =
      { filename := name, filetype := 0x30, size := some 0, mtime := none, isUstar := true } := by
    rw [headerAt, whole, getD_some, readHeader_archiveOf spellable]
  have entry : emplaceSingleEntry (archiveOf name) 0 ∅ = (SortedMap.insert ∅ name
      { filename := name, filetype := 0x30, size := some 0, mtime := none, isUstar := true }, some 0) := by
    simp only [emplaceSingleEntry, found, length, if_true]
    exact if_pos ⟨spellable.1, by decide, by decide⟩
  have done : ¬0 + headerSize + (some 0).elim 0 (Align.up 64 · 512) < (archiveOf name).length := by
    rw [length, elim_some]
    decide
  rw [scan, if_pos (by rw [length]; decide), entry]
  rw [scan, if_neg done]
  rfl

def Inside (dir path : Bytes) : Prop :=
  dir = Vfs.hostRoot ∨ ∃ rest, path = dir ++ Vfs.merge rest ∧ ∀ name ∈ rest, Vfs.slash ∉ name ∧ name ≠ Vfs.parent

lemma tarExtract_eq : tarExtract =
    [0x2f, 0x74, 0x61, 0x72, 0x5f, 0x65, 0x78, 0x74, 0x72, 0x61, 0x63, 0x74] := by decide +kernel

def destination (host : Vfs.Host) (root : Vfs.Directory) (dirPath name : Bytes) : Bytes :=
  (Vfs.get host (Vfs.mount host root tarExtract dirPath true).2 (tarExtract ++ Vfs.slash :: name)).path

lemma extractTar_eq (host : Vfs.Host) (root : Vfs.Directory) (file dirPath : Bytes) (outcome : Outcome) :
    extractTar host root file dirPath outcome =
      extractEntries host (Vfs.mount host root tarExtract dirPath true).2 tarExtract true outcome []
        (scan file 0 ∅).entries := by
  have accepted : (Vfs.mount host root tarExtract dirPath true).1 = true := by
    rw [Vfs.mount, if_neg (by rw [tarExtract_eq]; decide)]
  rw [extractTar, if_pos accepted, extract, Bool.or_true]

lemma target_eq_some {host : Vfs.Host} {root : Vfs.Directory} {dirPath path : Bytes} :
    target host (Vfs.mount host root tarExtract dirPath true).2 tarExtract true name = some path ↔
      path ≠ [] ∧ destination host root dirPath name = path := by
  rw [target, if_pos rfl]
  change (if destination host root dirPath name = [] then none else some (destination host root dirPath name)) = _ ↔ _
  split
  next empty =>
    exact ⟨fun none => absurd none (some_ne_none path).symm, fun found => absurd (found.2.symm.trans empty) found.1⟩
  next full =>
    rw [Option.some.injEq]
    exact ⟨fun same => ⟨same ▸ full, same⟩, And.right⟩

def escapingRoot : Vfs.Directory := (Vfs.mount ⟨id, []⟩ (.node [] []) "/d".toUTF8.toList "/h/".toUTF8.toList true).2

end EmuCore.Tar
