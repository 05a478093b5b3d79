import EmuCore.Lib.SortedMap
import EmuCore.Savedata.Disk
import EmuCore.Vfs.Escape

namespace EmuCore.Savedata

open EmuCore.Util CrashHoare List

def bufferSize : Nat := 65536

def writeChunks (slot : Slot) (name : Bytes) : Nat -> Bytes -> Io Bool
  | 0, _ => return true
  | bound + 1, remaining => do
    if remaining = [] then return true
    else if ← write slot name (remaining.take bufferSize) then
      writeChunks slot name bound (remaining.drop bufferSize)
    else return false

def copyEntry (target : Slot) : Bytes × Node -> Io Bool
  | (_, .dir _) => return false
  | (name, .file content) => do
    if ← openRewrite target name then writeChunks target name content.length content else return false

def dropUnlisted (target : Slot) (names : List Bytes) (entry : Bytes × Node) : Io Bool :=
  if entry.1 ∈ names then return true
  else if entry.2.isFile then removeFile .copy target [] entry.1
  else return false

def commitByCopy (source target : Slot) : Io Bool := do
  match ← observe fun disk => disk source with
  | none => return false
  | some entries =>
    if ← (do if ← createDir target then return true else isDir target) then
      if ← entries.allM (copyEntry target) then
        match ← observe fun disk => disk target with
        | none => return false
        | some present => present.allM (dropUnlisted target (entries.map Prod.fst))
      else return false
    else return false

-- "PARAM.SFO"
def paramSfo : Bytes := [0x50, 0x41, 0x52, 0x41, 0x4d, 0x2e, 0x53, 0x46, 0x4f]

structure Request where
  isNew : Bool
  allFiles : SortedMap Bytes Bytes
  sfo : Bytes

def Request.files (request : Request) : List (Bytes × Bytes) :=
  (request.allFiles.insert paramSfo request.sfo).entries.map fun file => (Vfs.escape file.1 false, file.2)

def writeFile (slot : Slot) (file : Bytes × Bytes) : Io Bool := do
  if ← openRewrite slot file.1 then write slot file.1 file.2 else return false

inductive Ended
  | returned
  | thrown
  deriving DecidableEq

def cleanUp (copied : Bool) : Io Ended := do
  if ← removeAll .finish .backup true then
    if copied then
      let _ ← removeAll .tidy .working true
      return .returned
    else return .returned
  else return .returned

def commit : Io Ended := do
  let _ ← removeAll .drop .backup true
  if ← rename .save .backup then
    if ← rename .working .save then cleanUp false
    else if ← commitByCopy .working .save then cleanUp true
    else return .thrown
  else return .thrown

def createSave (isNew : Bool) : Io Bool := if isNew then createDir .save else return true

def savedataOp (request : Request) : Io Ended := do
  let _ ← createSave request.isNew
  let _ ← createDir .working
  let _ ← removeAll .clear .working false
  if ← request.files.allM (writeFile .working) then commit else return .thrown

def sweepUp (copied : Bool) : Io Unit := do
  if ← removeAll .recover .backup true then
    if copied then
      let _ ← removeAll .sweep .working true

def fixup : Io Unit := do
  if ← isDir .backup then
    if ← isDir .working then
      if ← rename .working .save then sweepUp false
      else if ← commitByCopy .working .save then sweepUp true
    else sweepUp false

lemma find_cons (name other : Bytes) (node : Node) (rest : Entries) :
    find name ((other, node) :: rest) = if other = name then some node else find name rest := rfl

lemma put_cons (name other : Bytes) (node old : Node) (rest : Entries) :
    put name node ((other, old) :: rest) =
      if other = name then (name, node) :: rest else (other, old) :: put name node rest := rfl

variable {entries : Entries} {name : Bytes}

lemma find_mem {node : Node} (found : find name entries = some node) :
    (name, node) ∈ entries := by
  induction entries with
  | nil => cases found
  | cons entry rest ih =>
    obtain ⟨other, old⟩ := entry
    rw [find_cons] at found
    split at found
    next same =>
      cases found
      rw [same]
      exact mem_cons_self
    next => exact mem_cons_of_mem _ (ih found)

lemma find_isSome_of_mem (member : name ∈ entries.map Prod.fst) :
    (find name entries).isSome := by
  induction entries with
  | nil => cases member
  | cons entry rest ih =>
    obtain ⟨other, old⟩ := entry
    rw [find_cons]
    split
    next => rfl
    next differs => exact ih ((mem_cons.mp member).resolve_left fun same => differs same.symm)

lemma find_put_self (name : Bytes) (node : Node) (entries : Entries) :
    find name (put name node entries) = some node := by
  induction entries with
  | nil => exact if_pos rfl
  | cons entry rest ih =>
    obtain ⟨other, old⟩ := entry
    rw [put_cons]
    split
    next => rw [find_cons, if_pos rfl]
    next differs => rw [find_cons, if_neg differs, ih]

lemma find_put_other {other : Bytes} (differs : name ≠ other) (node : Node) (entries : Entries) :
    find other (put name node entries) = find other entries := by
  induction entries with
  | nil => exact if_neg differs
  | cons entry rest ih =>
    obtain ⟨first, old⟩ := entry
    rw [put_cons]
    split
    next same => rw [find_cons, if_neg differs, find_cons, if_neg (same ▸ differs)]
    next => rw [find_cons, find_cons, ih]

lemma mem_put {node : Node} {entry : Bytes × Node} (member : entry ∈ put name node entries) :
    entry = (name, node) ∨ entry ∈ entries := by
  induction entries with
  | nil => exact .inl (mem_singleton.mp member)
  | cons first rest ih =>
    obtain ⟨other, old⟩ := first
    rw [put_cons] at member
    split at member
    next => exact (mem_cons.mp member).imp_right (mem_cons_of_mem _)
    rcases mem_cons.mp member with same | later
    · exact .inr (same ▸ mem_cons_self)
    · exact (ih later).imp_right (mem_cons_of_mem _)

lemma put_distinct (distinct : (entries.map Prod.fst).Nodup) (name : Bytes) (node : Node) :
    ((put name node entries).map Prod.fst).Nodup := by
  induction entries with
  | nil => exact nodup_singleton name
  | cons first rest ih =>
    obtain ⟨other, old⟩ := first
    obtain ⟨fresh, distinct⟩ := nodup_cons.mp distinct
    rw [put_cons]
    split
    next same => exact nodup_cons.mpr ⟨same ▸ fresh, distinct⟩
    next differs =>
      refine nodup_cons.mpr ⟨fun member => ?_, ih distinct⟩
      obtain ⟨entry, inside, same⟩ := mem_map.mp member
      rcases mem_put inside with rfl | old
      · exact differs same.symm
      · exact fresh (same ▸ mem_map_of_mem old)

section Writing

variable {allowed : Site -> Prop} {crash : Disk -> Prop} {slot : Slot} {base : Disk} {name : Bytes}

lemma openRewrite_triple (plain : ∀ inner, find name entries ≠ some (.dir inner))
    (cut : crash (setSlot slot base entries)) :
    Triple allowed crash (· = setSlot slot base entries) (openRewrite slot name) fun ok disk =>
      ok = true ∧ disk = setSlot slot base (put name (.file []) entries) := by
  refine Triple.perform (fun _ same => same ▸ cut) ?_
  rintro disk rfl
  rw [setSlot_self]
  dsimp only
  cases found : find name entries with
  | none => exact ⟨rfl, setSlot_setSlot ..⟩
  | some node =>
    cases node with
    | file content => exact ⟨rfl, setSlot_setSlot ..⟩
    | dir inner => exact absurd found (plain inner)

lemma write_triple {content : Bytes} (bytes : Bytes) (found : find name entries = some (.file content))
    (cut : crash (setSlot slot base entries)) :
    Triple allowed crash (· = setSlot slot base entries) (write slot name bytes) fun ok disk =>
      ok = true ∧ disk = setSlot slot base (put name (.file (content ++ bytes)) entries) := by
  refine Triple.perform (fun _ same => same ▸ cut) ?_
  rintro disk rfl
  rw [setSlot_self]
  dsimp only
  rw [found]
  exact ⟨rfl, setSlot_setSlot ..⟩

end Writing

open Prod

structure Flat (entries : Entries) : Prop where
  distinct : (entries.map fst).Nodup
  files : ∀ entry ∈ entries, entry.2.isFile = true

lemma Flat.put {entries : Entries} (flat : Flat entries) (name content : Bytes) :
    Flat (Savedata.put name (.file content) entries) where
  distinct := put_distinct flat.distinct _ _
  files := by
    intro entry member
    rcases mem_put member with rfl | old
    · rfl
    · exact flat.files entry old

lemma Flat.find_ne_dir {entries : Entries} (files : ∀ entry ∈ entries, entry.2.isFile = true) (name : Bytes)
    (inner : Entries) : find name entries ≠ some (.dir inner) := by
  intro found
  have file := files _ (find_mem found)
  rw [Node.isFile] at file
  cases file

structure Copying (source finished target : Entries) : Prop where
  part : ∀ entry ∈ target, entry.2.isFile = true ∧ entry.1 ∈ source.map fst
  same : ∀ entry ∈ finished, find entry.1 target = some entry.2

lemma Copying.nil (source : Entries) : Copying source [] [] where
  part := fun _ none => absurd none not_mem_nil
  same := fun _ none => absurd none not_mem_nil

variable {finished source target : Entries}

lemma Copying.restart (copying : Copying source finished target) :
    Copying source [] target where
  part := copying.part
  same := fun _ none => absurd none not_mem_nil

lemma Copying.put (copying : Copying source finished target) {name : Bytes} (listed : name ∈ source.map fst)
    (fresh : name ∉ finished.map fst) (content : Bytes) :
    Copying source finished (Savedata.put name (.file content) target) where
  part := by
    intro entry member
    rcases mem_put member with rfl | old
    · exact ⟨rfl, listed⟩
    · exact copying.part entry old
  same := by
    intro entry member
    have differs : name ≠ entry.1 := fun same => fresh (same ▸ mem_map_of_mem member)
    rw [find_put_other differs]
    exact copying.same entry member

lemma Copying.find_eq (copying : Copying source source target) :
    ∀ name, find name target = find name source := by
  intro name
  cases found : find name source with
  | some node => exact copying.same _ (find_mem found)
  | none =>
    cases extra : find name target with
    | none => rfl
    | some node =>
      have listed := find_isSome_of_mem (copying.part _ (find_mem extra)).2
      rw [found] at listed
      cases listed

section Copy

variable {allowed : Site -> Prop} {target : Slot} {base : Disk} {source : Entries}

def Interrupted (source : Entries) (target : Slot) (base disk : Disk) : Prop :=
  ∃ entries, disk = setSlot target base entries ∧ Copying source [] entries

lemma writeChunks_triple {name : Bytes} (listed : name ∈ source.map fst) (fresh : name ∉ finished.map fst)
    (bound : Nat) (remaining content : Bytes) (enough : remaining.length ≤ bound) :
    Triple allowed (Interrupted source target base)
      (fun disk => ∃ entries, disk = setSlot target base entries ∧ Copying source finished entries ∧
        find name entries = some (.file content))
      (writeChunks target name bound remaining) fun ok disk =>
        ok = true ∧ ∃ entries, disk = setSlot target base entries ∧ Copying source finished entries ∧
          find name entries = some (.file (content ++ remaining)) := by
  induction bound generalizing remaining content with
  | zero =>
    obtain rfl := eq_nil_of_length_eq_zero (Nat.le_zero.mp enough)
    rw [append_nil]
    exact Triple.pure fun disk before => ⟨rfl, before⟩
  | succ bound ih =>
    rw [writeChunks]
    split
    next none =>
      rw [none, append_nil]
      exact Triple.pure fun disk before => ⟨rfl, before⟩
    next some =>
      refine Triple.given fun disk before => ?_
      obtain ⟨entries, rfl, copying, found⟩ := before
      refine Triple.bind (write_triple _ found ⟨entries, rfl, copying.restart⟩) fun ok => ?_
      refine Triple.given fun disk after => ?_
      obtain ⟨rfl, rfl⟩ := after
      have shorter : (remaining.drop bufferSize).length ≤ bound := by
        have positive := length_pos_iff.mpr some
        rw [length_drop, bufferSize]
        omega
      have next := ih (remaining.drop bufferSize) (content ++ remaining.take bufferSize) shorter
      rw [append_assoc, take_append_drop] at next
      refine next.enter ?_
      rintro s rfl
      exact ⟨_, rfl, copying.put listed fresh _, find_put_self ..⟩

lemma copyEntry_triple {todo : Entries} {name : Bytes} {node : Node} (flat : Flat source)
    (parts : source = finished ++ (name, node) :: todo) :
    Triple allowed (Interrupted source target base)
      (fun disk => ∃ entries, disk = setSlot target base entries ∧ Copying source finished entries)
      (copyEntry target (name, node)) fun ok disk =>
        ok = true ∧ ∃ entries, disk = setSlot target base entries ∧
          Copying source (finished ++ [(name, node)]) entries := by
  have member : (name, node) ∈ source := parts ▸ mem_append_right _ mem_cons_self
  have listed : name ∈ source.map fst := mem_map_of_mem member
  have fresh : name ∉ finished.map fst := by
    have distinct := flat.distinct
    rw [parts, map_append, map_cons] at distinct
    exact fun inside => disjoint_of_nodup_append distinct inside mem_cons_self
  cases node with
  | dir inner => exact absurd (flat.files _ member) Bool.false_ne_true
  | file content =>
    refine Triple.given fun disk before => ?_
    obtain ⟨entries, rfl, copying⟩ := before
    have plain := Flat.find_ne_dir (fun entry inside => (copying.part entry inside).1) name
    refine Triple.bind (openRewrite_triple plain ⟨entries, rfl, copying.restart⟩) fun ok => ?_
    refine Triple.given fun disk after => ?_
    obtain ⟨rfl, rfl⟩ := after
    refine (writeChunks_triple listed fresh content.length content [] le_rfl).weaken ?_ (fun _ cut => cut) ?_
    · rintro s rfl
      exact ⟨_, rfl, copying.put listed fresh [], find_put_self ..⟩
    rintro ok s ⟨done, entries, same, copying, found⟩
    refine ⟨done, entries, same, copying.part, ?_⟩
    intro entry inside
    rcases mem_append.mp inside with old | new
    · exact copying.same entry old
    · obtain rfl := mem_singleton.mp new
      exact found

def Progress (source : Entries) (target : Slot) (base : Disk) (todo : Entries) (disk : Disk) : Prop :=
  ∃ finished entries, source = finished ++ todo ∧ disk = setSlot target base entries ∧ Copying source finished entries

lemma copyEntries_triple (flat : Flat source) :
    Triple allowed (Interrupted source target base) (Interrupted source target base)
      (source.allM (copyEntry target)) fun ok disk =>
        ok = true ∧ ∃ entries, disk = setSlot target base entries ∧ Copying source source entries := by
  have step : ∀ entry todo, Triple allowed (Interrupted source target base)
      (Progress source target base (entry :: todo)) (copyEntry target entry) fun ok disk =>
        (ok = true -> Progress source target base todo disk) ∧ (ok = false -> False) := by
    rintro ⟨name, node⟩ todo
    refine Triple.given fun disk before => ?_
    obtain ⟨finished, entries, parts, rfl, copying⟩ := before
    refine (copyEntry_triple flat parts).weaken ?_ (fun _ cut => cut) ?_
    · rintro s rfl
      exact ⟨entries, rfl, copying⟩
    · rintro ok s ⟨rfl, entries, same, copying⟩
      exact ⟨fun _ => ⟨_, entries, by rw [parts, append_assoc]; rfl, same, copying⟩, Bool.noConfusion⟩
  refine (Triple.allM (Progress source target base) (fun _ => False) step source).weaken ?_ (fun _ cut => cut) ?_
  · rintro disk ⟨entries, same, copying⟩
    exact ⟨[], entries, rfl, same, copying⟩
  rintro ok disk ⟨ended, stopped⟩
  cases ok with
  | false => exact (stopped rfl).elim
  | true =>
    obtain ⟨finished, entries, parts, same, copying⟩ := ended rfl
    rw [append_nil] at parts
    exact ⟨rfl, entries, same, parts ▸ copying⟩

lemma dropUnlisted_triple {crash : Disk -> Prop} {names : List Bytes} {disk : Disk} {present : Entries}
    (listed : ∀ entry ∈ present, entry.1 ∈ names) :
    Triple allowed crash (· = disk) (present.allM (dropUnlisted target names)) fun ok after =>
      ok = true ∧ after = disk := by
  induction present with
  | nil => exact Triple.pure fun s same => ⟨rfl, same⟩
  | cons entry present ih =>
    obtain ⟨first, later⟩ := forall_mem_cons.mp listed
    rw [List.allM, dropUnlisted, if_pos first]
    have kept : Triple allowed crash (· = disk) (pure true : Io Bool) fun ok s => ok = true ∧ s = disk :=
      Triple.pure fun s same => ⟨rfl, same⟩
    refine Triple.bind kept fun ok => ?_
    refine Triple.given fun s after => ?_
    obtain ⟨rfl, rfl⟩ := after
    exact ih later

lemma createTarget_triple {crash : Disk -> Prop} (cut : crash base)
    (partial_ : ∀ entries, base target = some entries -> Copying source [] entries) :
    Triple allowed crash (· = base)
      (do if ← createDir target then return true else isDir target : Io Bool) fun ok disk =>
        ok = true ∧ Interrupted source target base disk := by
  have created : Triple allowed crash (· = base) (createDir target) fun _ disk =>
      (disk target).isSome ∧ Interrupted source target base disk := by
    refine Triple.perform (fun _ same => same ▸ cut) ?_
    rintro disk rfl
    cases found : disk target with
    | none => exact ⟨by simp, [], rfl, Copying.nil source⟩
    | some entries =>
      simp only [found]
      exact ⟨rfl, entries, (setSlot_same found).symm, partial_ entries found⟩
  refine Triple.bind created fun ok => ?_
  cases ok with
  | true => exact Triple.pure fun disk after => ⟨rfl, after.2⟩
  | false =>
    refine Triple.observe.weaken (fun _ after => after) (fun _ cut => cut) ?_
    rintro ok disk ⟨⟨there, interrupted⟩, rfl⟩
    exact ⟨there, interrupted⟩

lemma commitByCopy_triple {from_ : Slot} (flat : Flat source)
    (full : base from_ = some source) (partial_ : ∀ entries, base target = some entries -> Copying source [] entries) :
    Triple allowed (fun disk => disk = base ∨ Interrupted source target base disk) (· = base)
      (commitByCopy from_ target) fun ok disk =>
        ok = true ∧ ∃ entries, disk = setSlot target base entries ∧ Copying source source entries := by
  refine Triple.bind Triple.observe fun listed => ?_
  refine Triple.given fun disk before => ?_
  obtain ⟨rfl, rfl⟩ := before
  rw [full]
  refine Triple.bind (createTarget_triple (.inl rfl) partial_) fun ok => ?_
  cases ok with
  | false => exact fun _ _ before => absurd before.1 Bool.false_ne_true
  | true =>
    refine Triple.bind ((copyEntries_triple flat).weaken (fun _ before => before.2) (fun _ cut => .inr cut)
      fun _ _ after => after) fun ok => ?_
    cases ok with
    | false => exact fun _ _ before => absurd before.1 Bool.false_ne_true
    | true =>
      refine Triple.bind Triple.observe fun present => ?_
      refine Triple.given fun disk before => ?_
      obtain ⟨⟨-, entries, rfl, copying⟩, rfl⟩ := before
      rw [setSlot_self]
      refine (dropUnlisted_triple fun entry member => (copying.part entry member).2).weaken
        (fun _ same => same) (fun _ cut => cut) ?_
      rintro ok s ⟨rfl, rfl⟩
      exact ⟨rfl, entries, rfl, copying⟩

end Copy

end EmuCore.Savedata
