import EmuCore.Lib.CrashHoare
import EmuCore.Util.Stream

namespace EmuCore.Savedata

open EmuCore.Util CrashHoare List Function

/- The directories of one save: the save itself, the one a new save is written to, and the one the old save is
moved to. The entries of a directory are listed in the order of their creation, without "." and "..". -/

inductive Node
  | file (content : Bytes)
  | dir (entries : List (Bytes × Node))

abbrev Entries := List (Bytes × Node)

inductive Slot
  | save
  | working
  | backup
  deriving DecidableEq

abbrev Disk := Slot -> Option Entries

inductive Site
  | rename
  | clear
  | drop
  | finish
  | tidy
  | copy
  | recover
  | sweep
  deriving DecidableEq

abbrev Io := Prog Disk Site

def find (name : Bytes) : Entries -> Option Node
  | [] => none
  | (other, node) :: rest => if other = name then some node else find name rest

def put (name : Bytes) (node : Node) : Entries -> Entries
  | [] => [(name, node)]
  | (other, old) :: rest => if other = name then (name, node) :: rest else (other, old) :: put name node rest

def erase (fits : Node -> Bool) (name : Bytes) : Entries -> Option Entries
  | [] => none
  | (other, node) :: rest =>
    if other = name then if fits node then some rest else none
    else (erase fits name rest).map ((other, node) :: ·)

def within (change : Entries -> Option Entries) (name : Bytes) : Entries -> Option Entries
  | [] => none
  | (other, .dir inner) :: rest =>
    if other = name then (change inner).map fun inner => (other, .dir inner) :: rest
    else (within change name rest).map ((other, .dir inner) :: ·)
  | (other, .file content) :: rest =>
    if other = name then none else (within change name rest).map ((other, .file content) :: ·)

def eraseAt (fits : Node -> Bool) : List Bytes -> Bytes -> Entries -> Option Entries
  | [], name => erase fits name
  | dir :: path, name => within (eraseAt fits path name) dir

def Node.isFile : Node -> Bool
  | .file _ => true
  | .dir _ => false

def Node.isEmptyDir : Node -> Bool
  | .file _ => false
  | .dir entries => entries.isEmpty

variable (slot : Slot)

def setSlot (disk : Disk) (entries : Entries) : Disk := update disk slot (some entries)

def isDir : Io Bool := observe fun disk => (disk slot).isSome

def createDir : Io Bool := perform fun disk =>
  match disk slot with
  | none => (true, setSlot slot disk [])
  | some _ => (false, disk)

def openRewrite (name : Bytes) : Io Bool := perform fun disk =>
  match disk slot with
  | none => (false, disk)
  | some entries =>
    match find name entries with
    | some (.dir _) => (false, disk)
    | _ => (true, setSlot slot disk (put name (.file []) entries))

def write (name bytes : Bytes) : Io Bool := perform fun disk =>
  match disk slot with
  | none => (false, disk)
  | some entries =>
    match find name entries with
    | some (.file content) => (true, setSlot slot disk (put name (.file (content ++ bytes)) entries))
    | _ => (false, disk)

def removeAt (fits : Node -> Bool) (site : Site) (slot : Slot) (path : List Bytes) (name : Bytes) : Io Bool :=
  attempt site fun disk =>
    match (disk slot).bind (eraseAt fits path name) with
    | some entries => (true, setSlot slot disk entries)
    | none => (false, disk)

def removeFile : Site -> Slot -> List Bytes -> Bytes -> Io Bool := removeAt Node.isFile

def removeDir : Site -> Slot -> List Bytes -> Bytes -> Io Bool := removeAt Node.isEmptyDir

def removeRoot (site : Site) (slot : Slot) : Io Bool := attempt site fun disk =>
  match disk slot with
  | some [] => (true, update disk slot none)
  | _ => (false, disk)

def rename (old new : Slot) : Io Bool := attempt .rename fun disk =>
  match disk old, disk new with
  | some entries, none => (true, update (setSlot new disk entries) old none)
  | _, _ => (false, disk)

mutual

def removeNode (site : Site) (slot : Slot) (path : List Bytes) (name : Bytes) : Node -> Io Bool
  | .file _ => removeFile site slot path name
  | .dir entries => do
    if ← removeEntries site slot (path ++ [name]) entries then removeDir site slot path name else return false

def removeEntries (site : Site) (slot : Slot) (path : List Bytes) : List (Bytes × Node) -> Io Bool
  | [] => return true
  | (name, node) :: rest => do
    if ← removeNode site slot path name node then removeEntries site slot path rest else return false

end

def removeAll (site : Site) (slot : Slot) (root : Bool) : Io Bool := do
  match ← observe fun disk => disk slot with
  | none => return false
  | some entries =>
    if ← removeEntries site slot [] entries then
      if root then removeRoot site slot else return true
    else return false

def plug : List (Bytes × Entries) -> Entries -> Entries
  | [], entries => entries
  | (name, rest) :: frames, entries => (name, .dir (plug frames entries)) :: rest

lemma plug_append (frames : List (Bytes × Entries)) (name : Bytes) (rest entries : Entries) :
    plug (frames ++ [(name, rest)]) entries = plug frames ((name, .dir entries) :: rest) := by
  induction frames with
  | nil => rfl
  | cons frame frames ih => rw [cons_append, plug, plug, ih]

lemma eraseAt_plug {fits : Node -> Bool} {node : Node} (fitting : fits node = true)
    (frames : List (Bytes × Entries)) (name : Bytes) (rest : Entries) :
    eraseAt fits (frames.map Prod.fst) name (plug frames ((name, node) :: rest)) = some (plug frames rest) := by
  induction frames with
  | nil => rw [map_nil, eraseAt, plug, erase, if_pos rfl, if_pos fitting, plug]
  | cons frame frames ih =>
    rw [map_cons, eraseAt, plug, within, if_pos rfl, ih, Option.map_some, plug]

@[simp] lemma setSlot_self (slot : Slot) (disk : Disk) (entries : Entries) :
    setSlot slot disk entries slot = some entries := update_self ..

@[simp] lemma setSlot_setSlot (slot : Slot) (disk : Disk) (old new : Entries) :
    setSlot slot (setSlot slot disk old) new = setSlot slot disk new := update_idem ..

lemma setSlot_same {slot : Slot} {disk : Disk} {entries : Entries} (present : disk slot = some entries) :
    setSlot slot disk entries = disk := by
  rw [setSlot, ← present, update_eq_self]

section Removal

variable {allowed : Site -> Prop} {site : Site} {slot : Slot} {base : Disk}

def Confined (slot : Slot) (base disk : Disk) : Prop := ∃ entries, disk = setSlot slot base entries

def Emptied (allowed : Site -> Prop) (site : Site) (slot : Slot) (base : Disk) (left : Entries) (ok : Bool)
    (disk : Disk) : Prop :=
  Confined slot base disk ∧ (ok = true -> disk = setSlot slot base left) ∧ (ok = false -> allowed site)

lemma removeAt_triple {fits : Node -> Bool} {node : Node} (fitting : fits node = true)
    (frames : List (Bytes × Entries)) (name : Bytes) (rest : Entries) :
    Triple allowed (Confined slot base) (· = setSlot slot base (plug frames ((name, node) :: rest)))
      (removeAt fits site slot (frames.map Prod.fst) name)
      (Emptied allowed site slot base (plug frames rest)) := by
  refine Triple.attempt ?_ ?_ ?_
  · rintro disk rfl
    exact ⟨_, rfl⟩
  · rintro disk rfl
    simp only [setSlot_self, Option.bind_some, eraseAt_plug fitting, setSlot_setSlot]
    exact ⟨⟨_, rfl⟩, fun _ => rfl, Bool.noConfusion⟩
  · rintro fails disk rfl
    exact ⟨⟨_, rfl⟩, Bool.noConfusion, fun _ => fails⟩

mutual

lemma removeNode_triple (frames : List (Bytes × Entries)) (name : Bytes) (rest : Entries) (node : Node) :
    Triple allowed (Confined slot base) (· = setSlot slot base (plug frames ((name, node) :: rest)))
      (removeNode site slot (frames.map Prod.fst) name node)
      (Emptied allowed site slot base (plug frames rest)) := by
  cases node with
  | file content => exact removeAt_triple rfl frames name rest
  | dir entries =>
    have inner := removeEntries_triple (frames ++ [(name, rest)]) entries
    rw [map_append, map_singleton, plug_append, plug_append] at inner
    refine Triple.bind inner fun ok => ?_
    cases ok with
    | true =>
      refine (removeAt_triple rfl frames name rest).weaken (fun disk emptied => emptied.2.1 rfl) ?_ ?_
      · exact fun _ cut => cut
      · exact fun _ _ after => after
    | false => exact Triple.pure fun disk emptied => ⟨emptied.1, Bool.noConfusion, emptied.2.2⟩

lemma removeEntries_triple (frames : List (Bytes × Entries)) (entries : Entries) :
    Triple allowed (Confined slot base) (· = setSlot slot base (plug frames entries))
      (removeEntries site slot (frames.map Prod.fst) entries)
      (Emptied allowed site slot base (plug frames [])) := by
  cases entries with
  | nil => exact Triple.pure fun disk same => ⟨⟨_, same⟩, fun _ => same, Bool.noConfusion⟩
  | cons entry rest =>
    obtain ⟨name, node⟩ := entry
    refine Triple.bind (removeNode_triple frames name rest node) fun ok => ?_
    cases ok with
    | true =>
      refine (removeEntries_triple frames rest).weaken (fun disk emptied => emptied.2.1 rfl) ?_ ?_
      · exact fun _ cut => cut
      · exact fun _ _ after => after
    | false => exact Triple.pure fun disk emptied => ⟨emptied.1, Bool.noConfusion, emptied.2.2⟩

end

lemma removeRoot_triple :
    Triple allowed (Confined slot base) (· = setSlot slot base []) (removeRoot site slot) fun ok disk =>
      (ok = true -> disk = update base slot none) ∧ (ok = false -> allowed site ∧ Confined slot base disk) := by
  refine Triple.attempt ?_ ?_ ?_
  · rintro disk rfl
    exact ⟨_, rfl⟩
  · rintro disk rfl
    simp only [setSlot_self]
    exact ⟨fun _ => update_idem .., Bool.noConfusion⟩
  · rintro fails disk rfl
    exact ⟨Bool.noConfusion, fun _ => ⟨fails, _, rfl⟩⟩

def removed (slot : Slot) (base : Disk) (root : Bool) : Disk :=
  if root then update base slot none else setSlot slot base []

lemma removeAll_triple {entries : Entries} (present : base slot = some entries) (root : Bool) :
    Triple allowed (Confined slot base) (· = base) (removeAll site slot root) fun ok disk =>
      (ok = true -> disk = removed slot base root) ∧ (ok = false -> allowed site ∧ Confined slot base disk) := by
  have same : base = setSlot slot base (plug [] entries) := (setSlot_same present).symm
  refine Triple.bind Triple.observe fun listed => ?_
  refine Triple.given fun disk at_ => ?_
  obtain ⟨rfl, rfl⟩ := at_
  rw [present]
  refine Triple.bind ((removeEntries_triple [] entries).enter ?_) fun ok => ?_
  · rintro s rfl
    exact same
  cases ok with
  | true =>
    cases root with
    | true => exact removeRoot_triple.enter fun s emptied => emptied.2.1 rfl
    | false => exact Triple.pure fun s emptied => ⟨fun _ => emptied.2.1 rfl, Bool.noConfusion⟩
  | false => exact Triple.pure fun s emptied => ⟨Bool.noConfusion, fun _ => ⟨emptied.2.2 rfl, emptied.1⟩⟩

lemma removeAll_absent {crash : Disk -> Prop} (absent : base slot = none) (root : Bool) :
    Triple allowed crash (· = base) (removeAll site slot root) fun ok disk => ok = false ∧ disk = base := by
  refine Triple.bind Triple.observe fun listed => ?_
  refine Triple.given fun disk at_ => ?_
  obtain ⟨rfl, rfl⟩ := at_
  rw [absent]
  exact Triple.pure fun s same => ⟨rfl, same⟩

end Removal

end EmuCore.Savedata
