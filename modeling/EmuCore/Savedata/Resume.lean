import EmuCore.Savedata.Commit

namespace EmuCore.Savedata

open EmuCore.Util CrashHoare List Option

def files (directory : Option Entries) (name : Bytes) : Option Node := directory.bind (find name)

def complete (request : Request) (name : Bytes) : Option Node :=
  (request.files.reverse.find? (·.1 = name)).map fun file => .file file.2

def built (written : List (Bytes × Bytes)) : Entries :=
  written.foldl (fun entries file => put file.1 (.file file.2) entries) []

section

variable (written : List (Bytes × Bytes))

include written

lemma built_append (file : Bytes × Bytes) :
    built (written ++ [file]) = put file.1 (.file file.2) (built written) := foldl_concat ..

lemma flat_built : Flat (built written) := by
  induction written using List.reverseRecOn with
  | nil => exact ⟨nodup_nil, fun _ none => absurd none not_mem_nil⟩
  | append_singleton written file ih =>
    rw [built_append]
    exact ih.put file.1 file.2

lemma find_built (name : Bytes) :
    find name (built written) = (written.reverse.find? (·.1 = name)).map fun file => .file file.2 := by
  induction written using List.reverseRecOn with
  | nil => rfl
  | append_singleton written file ih =>
    rw [built_append, reverse_append, reverse_singleton, singleton_append]
    by_cases same : file.1 = name
    · rw [find?_cons_of_pos (by simpa using same), ← same, find_put_self, map_some]
    · rw [find?_cons_of_neg (by simpa using same), find_put_other same, ih]

end

lemma files_built (request : Request) : files (some (built request.files)) = complete request :=
  funext fun name => find_built request.files name

lemma put_put (name : Bytes) (old new : Node) (entries : Entries) :
    put name new (put name old entries) = put name new entries := by
  induction entries with
  | nil => exact if_pos rfl
  | cons entry rest ih =>
    obtain ⟨other, node⟩ := entry
    by_cases same : other = name
    · rw [put_cons, if_pos same, put_cons, if_pos rfl, put_cons, if_pos same]
    · rw [put_cons, if_neg same, put_cons, if_neg same, put_cons, if_neg same, ih]

-- The latest save is complete in the working directory. What there is of it in the save directory is a part of it.
structure Pending (source : Entries) (latest : Bytes -> Option Node) (disk : Disk) : Prop where
  backed : (disk .backup).isSome
  full : disk .working = some source
  flat : Flat source
  new : files (some source) = latest
  part : ∀ entries, disk .save = some entries -> Copying source [] entries

inductive Resumable (previous latest : Bytes -> Option Node) (disk : Disk) : Prop
  | settled (gone : disk .backup = none) (kept : files (disk .save) = previous ∨ files (disk .save) = latest)
  | pending {source : Entries} (pending : Pending source latest disk)
  | moved (gone : disk .working = none) (new : files (disk .save) = latest)

structure Committed (previous latest : Bytes -> Option Node) (disk : Disk) : Prop where
  resumable : Resumable previous latest disk
  backed : (disk .backup).isSome
  new : files (disk .save) = latest

structure Settled (latest : Bytes -> Option Node) (disk : Disk) : Prop where
  gone : disk .backup = none
  new : files (disk .save) = latest

variable {disk : Disk} {latest : Bytes -> Option Node}

lemma Settled.resumable {previous : Bytes -> Option Node} (settled : Settled latest disk) :
    Resumable previous latest disk := .settled settled.gone (.inr settled.new)

lemma Settled.congr {other : Disk} (settled : Settled latest disk) (backup : other .backup = disk .backup)
    (save : other .save = disk .save) : Settled latest other :=
  ⟨backup.trans settled.gone, (congrArg files save).trans settled.new⟩

lemma Committed.setBackup {previous : Bytes -> Option Node} (committed : Committed previous latest disk)
    (entries : Entries) :
    Committed previous latest (setSlot .backup disk entries) := by
  refine ⟨?_, rfl, committed.new⟩
  cases committed.resumable with
  | settled gone => exact absurd committed.backed (by rw [gone]; exact Bool.false_ne_true)
  | pending pending => exact .pending { pending with backed := rfl }
  | moved gone new => exact .moved gone new

variable {source : Entries}

section Steps

variable {allowed : Site -> Prop} {previous latest : Bytes -> Option Node}

lemma removeBackup_triple {site : Site} (reliable : ¬allowed site) :
    Triple allowed (Resumable previous latest) (Committed previous latest) (removeAll site .backup true)
      fun ok disk => ok = true ∧ Settled latest disk := by
  refine Triple.given fun disk committed => ?_
  obtain ⟨entries, present⟩ := isSome_iff_exists.mp committed.backed
  refine (removeAll_triple present true).weaken (fun _ same => same) ?_ ?_
  · rintro s ⟨entries, rfl⟩
    exact (committed.setBackup entries).resumable
  rintro ok s ⟨done, failed⟩
  cases ok with
  | false => exact absurd (failed rfl).1 reliable
  | true =>
    rw [done rfl]
    exact ⟨rfl, rfl, committed.new⟩

lemma removeAll_keeps {crash inv : Disk -> Prop} (site : Site) (slot : Slot) (root : Bool)
    (frame : ∀ disk content, inv disk -> inv (Function.update disk slot content)) (cut : ∀ disk, inv disk -> crash disk) :
    Triple allowed crash inv (removeAll site slot root) fun _ => inv := by
  refine Triple.given fun disk holds => ?_
  cases present : disk slot with
  | none =>
    refine (removeAll_absent present root).weaken (fun _ same => same) (fun _ cut => cut) ?_
    rintro ok s ⟨-, rfl⟩
    exact holds
  | some entries =>
    refine (removeAll_triple present root).weaken (fun _ same => same) ?_ ?_
    · rintro s ⟨entries, rfl⟩
      exact cut _ (frame disk _ holds)
    rintro ok s ⟨done, failed⟩
    cases ok with
    | false =>
      obtain ⟨-, entries, rfl⟩ := failed rfl
      exact frame disk _ holds
    | true =>
      rw [done rfl, removed]
      split
      · exact frame disk _ holds
      · exact frame disk _ holds

lemma removeWorking_triple (site : Site) :
    Triple allowed (Resumable previous latest) (Settled latest) (removeAll site .working true)
      fun _ => Settled latest :=
  removeAll_keeps site .working true (fun _ _ settled => settled.congr rfl rfl) fun _ settled => settled.resumable

lemma moveWorking_triple :
    Triple allowed (Resumable previous latest) (Pending source latest) (rename .working .save) fun ok disk =>
      (ok = true -> Committed previous latest disk) ∧ (ok = false -> Pending source latest disk) := by
  refine Triple.attempt (fun _ pending => .pending pending) ?_ fun _ _ pending => ⟨Bool.noConfusion, fun _ => pending⟩
  intro disk pending
  rw [pending.full]
  cases found : disk .save with
  | some entries => exact ⟨Bool.noConfusion, fun _ => pending⟩
  | none => exact ⟨fun _ => ⟨.moved rfl pending.new, pending.backed, pending.new⟩, Bool.noConfusion⟩

lemma copyWorking_triple :
    Triple allowed (Resumable previous latest) (Pending source latest) (commitByCopy .working .save)
      fun ok disk => ok = true ∧ Committed previous latest disk := by
  refine Triple.given fun disk pending => ?_
  have part {s : Disk} (entries : Entries) (same : s = setSlot .save disk entries) (copying : Copying source [] entries) :
      Pending source latest s := by
    subst same
    refine { pending with part := ?_ }
    rintro other found
    rw [setSlot_self] at found
    exact Option.some.inj found ▸ copying
  refine (commitByCopy_triple pending.flat pending.full pending.part).weaken (fun _ same => same) ?_ ?_
  · rintro s (rfl | ⟨entries, same, copying⟩)
    · exact .pending pending
    · exact .pending (part entries same copying)
  · rintro ok s ⟨done, entries, same, copying⟩
    have resumed := part entries same copying.restart
    refine ⟨done, .pending resumed, resumed.backed, ?_⟩
    rw [same, setSlot_self, ← pending.new]
    exact funext copying.find_eq

lemma sweepUp_triple (reliable : ¬allowed .recover) (copied : Bool) :
    Triple allowed (Resumable previous latest) (Committed previous latest) (sweepUp copied)
      fun _ => Settled latest := by
  refine Triple.bind (removeBackup_triple reliable) fun ok => Triple.fact ?_
  rintro rfl
  cases copied with
  | false => exact Triple.pure fun _ settled => settled
  | true =>
    refine Triple.bind (removeWorking_triple .sweep) fun _ => ?_
    exact Triple.pure fun _ settled => settled

lemma resume_triple (reliable : ¬allowed .recover) :
    Triple allowed (Resumable previous latest) (Pending source latest)
      (do
        if ← rename .working .save then sweepUp false
        else if ← commitByCopy .working .save then sweepUp true : Io Unit)
      fun _ => Settled latest := by
  refine Triple.bind moveWorking_triple fun moved => ?_
  cases moved with
  | true =>
    exact (sweepUp_triple reliable false).enter fun _ after => after.1 rfl
  | false =>
    refine Triple.bind (copyWorking_triple.enter fun _ after => after.2 rfl) fun copied => Triple.fact ?_
    rintro rfl
    exact sweepUp_triple reliable true

lemma fixup_triple (reliable : ¬allowed .recover) :
    Triple allowed (Resumable previous latest) (Resumable previous latest) fixup fun _ disk =>
      disk .backup = none ∧ (files (disk .save) = previous ∨ files (disk .save) = latest) := by
  refine Triple.bind Triple.observe fun backed => ?_
  refine Triple.given fun disk before => ?_
  obtain ⟨resumable, rfl⟩ := before
  cases resumable with
  | settled gone kept =>
    rw [gone]
    exact Triple.pure fun _ same => same ▸ ⟨gone, kept⟩
  | pending pending =>
    rw [if_pos pending.backed]
    refine Triple.bind Triple.observe fun there => ?_
    refine Triple.given fun s before => ?_
    obtain ⟨rfl, rfl⟩ := before
    rw [pending.full, isSome_some, if_pos rfl]
    exact (resume_triple reliable).weaken (fun _ same => same ▸ pending) (fun _ cut => cut)
      fun _ _ settled => ⟨settled.gone, .inr settled.new⟩
  | moved away new =>
    cases found : disk .backup with
    | none => exact Triple.pure fun _ same => same ▸ ⟨found, .inr new⟩
    | some entries =>
      rw [isSome_some, if_pos rfl]
      refine Triple.bind Triple.observe fun there => ?_
      refine Triple.given fun s before => ?_
      obtain ⟨rfl, rfl⟩ := before
      rw [away, isSome_none, if_neg Bool.false_ne_true]
      refine (sweepUp_triple reliable false).weaken ?_ (fun _ cut => cut)
        fun _ _ settled => ⟨settled.gone, .inr settled.new⟩
      rintro t rfl
      exact ⟨.moved away new, by rw [found]; rfl, new⟩

lemma cleanUp_triple (reliable : ¬allowed .finish) (copied : Bool) :
    Triple allowed (Resumable previous latest) (Committed previous latest) (cleanUp copied) fun ended disk =>
      ended = .returned ∧ Settled latest disk := by
  refine Triple.bind (removeBackup_triple reliable) fun ok => Triple.fact ?_
  rintro rfl
  cases copied with
  | false => exact Triple.pure fun _ settled => ⟨rfl, settled⟩
  | true =>
    refine Triple.bind (removeWorking_triple .tidy) fun _ => ?_
    exact Triple.pure fun _ settled => ⟨rfl, settled⟩

structure Preparing (previous : Bytes -> Option Node) (working : Option Entries -> Prop) (disk : Disk) : Prop where
  gone : disk .backup = none
  old : files (disk .save) = previous
  draft : working (disk .working)

lemma Preparing.resumable {working : Option Entries -> Prop} (preparing : Preparing previous working disk) :
    Resumable previous latest disk :=
  .settled preparing.gone (.inl preparing.old)

def Result (previous latest : Bytes -> Option Node) (ended : Ended) (disk : Disk) : Prop :=
  Resumable previous latest disk ∧ (ended = .returned -> Settled latest disk)

lemma moveSave_triple (flat : Flat source) (new : files (some source) = latest) :
    Triple allowed (Resumable previous latest) (Preparing previous (· = some source)) (rename .save .backup)
      fun ok disk => (ok = true -> Pending source latest disk) ∧ (ok = false -> Resumable previous latest disk) := by
  refine Triple.attempt (fun _ preparing => preparing.resumable) ?_
    fun _ _ preparing => ⟨Bool.noConfusion, fun _ => preparing.resumable⟩
  intro disk preparing
  rw [preparing.gone]
  cases disk .save with
  | none => exact ⟨Bool.noConfusion, fun _ => preparing.resumable⟩
  | some entries =>
    refine ⟨fun _ => ⟨rfl, preparing.draft, flat, new, ?_⟩, Bool.noConfusion⟩
    rintro other none
    cases none

lemma commit_triple (reliable : ¬allowed .finish) (flat : Flat source) (new : files (some source) = latest) :
    Triple allowed (Resumable previous latest) (Preparing previous (· = some source)) commit
      (Result previous latest) := by
  have returned {ended : Ended} {disk : Disk} (after : ended = .returned ∧ Settled latest disk) :
      Result previous latest ended disk := ⟨after.2.resumable, fun _ => after.2⟩
  refine Triple.given fun disk preparing => ?_
  refine Triple.bind (removeAll_absent preparing.gone true) fun _ => ?_
  refine Triple.bind ((moveSave_triple flat new).enter fun _ same => same.2 ▸ preparing) fun backed => ?_
  cases backed with
  | false => exact Triple.pure fun _ after => ⟨after.2 rfl, Ended.noConfusion⟩
  | true =>
    refine Triple.bind (moveWorking_triple.enter fun _ after => after.1 rfl) fun moved => ?_
    cases moved with
    | true =>
      exact (cleanUp_triple reliable false).weaken (fun _ after => after.1 rfl) (fun _ cut => cut)
        fun _ _ after => returned after
    | false =>
      refine Triple.bind (copyWorking_triple.enter fun _ after => after.2 rfl) fun copied => Triple.fact ?_
      rintro rfl
      exact (cleanUp_triple reliable true).weaken (fun _ committed => committed) (fun _ cut => cut)
        fun _ _ after => returned after

lemma Preparing.setWorking {working : Option Entries -> Prop} (preparing : Preparing previous working disk)
    (new : Option Entries -> Prop) {entries : Entries} (draft : new (some entries)) :
    Preparing previous new (setSlot .working disk entries) :=
  ⟨preparing.gone, preparing.old, draft⟩

lemma writeFile_triple {entries : Entries} (flat : Flat entries) (file : Bytes × Bytes) :
    Triple allowed (Resumable previous latest) (Preparing previous (· = some entries)) (writeFile .working file)
      fun ok disk => ok = true ∧ Preparing previous (· = some (put file.1 (.file file.2) entries)) disk := by
  refine Triple.given fun disk preparing => ?_
  have cut (entries : Entries) : Resumable previous latest (setSlot .working disk entries) :=
    (preparing.setWorking (fun _ => True) trivial).resumable
  rw [← setSlot_same preparing.draft]
  refine Triple.bind (openRewrite_triple (Flat.find_ne_dir flat.files file.1) (cut entries)) fun ok => ?_
  refine Triple.given fun s after => ?_
  obtain ⟨rfl, rfl⟩ := after
  refine (write_triple file.2 (find_put_self ..) (cut _)).weaken (fun _ same => same) (fun _ cut => cut) ?_
  rintro ok s ⟨rfl, rfl⟩
  rw [put_put, nil_append]
  exact ⟨rfl, preparing.setWorking _ rfl⟩

def Written (previous : Bytes -> Option Node) (all todo : List (Bytes × Bytes)) (disk : Disk) : Prop :=
  ∃ done, all = done ++ todo ∧ Preparing previous (· = some (built done)) disk

lemma writeFiles_triple (all : List (Bytes × Bytes)) :
    Triple allowed (Resumable previous latest) (Preparing previous (· = some [])) (all.allM (writeFile .working))
      fun ok disk => ok = true ∧ Preparing previous (· = some (built all)) disk := by
  have step : ∀ file todo, Triple allowed (Resumable previous latest) (Written previous all (file :: todo))
      (writeFile .working file) fun ok disk => (ok = true -> Written previous all todo disk) ∧ (ok = false -> False) := by
    intro file todo
    refine Triple.given fun disk before => ?_
    obtain ⟨done, parts, preparing⟩ := before
    refine (writeFile_triple (flat_built done) file).weaken (fun _ same => same ▸ preparing) (fun _ cut => cut) ?_
    rintro ok s ⟨rfl, preparing⟩
    rw [← built_append] at preparing
    exact ⟨fun _ => ⟨_, by rw [parts, append_assoc]; rfl, preparing⟩, Bool.noConfusion⟩
  refine (Triple.allM (Written previous all) (fun _ => False) step all).weaken ?_ (fun _ cut => cut) ?_
  · exact fun disk preparing => ⟨[], rfl, preparing⟩
  rintro ok disk ⟨ended, stopped⟩
  cases ok with
  | false => exact (stopped rfl).elim
  | true =>
    obtain ⟨done, parts, preparing⟩ := ended rfl
    rw [append_nil] at parts
    exact ⟨rfl, parts ▸ preparing⟩

lemma createWorking_triple :
    Triple allowed (Resumable previous latest) (Preparing previous fun _ => True) (createDir .working)
      fun _ => Preparing previous (·.isSome) := by
  refine Triple.perform (fun _ preparing => preparing.resumable) ?_
  intro disk preparing
  cases found : disk .working with
  | none => exact preparing.setWorking _ rfl
  | some entries => exact ⟨preparing.gone, preparing.old, isSome_iff_exists.mpr ⟨entries, found⟩⟩

lemma createSave_triple (isNew : Bool) :
    Triple allowed (Resumable previous latest) (Preparing previous fun _ => True) (createSave isNew)
      fun _ => Preparing previous fun _ => True := by
  cases isNew with
  | false => exact Triple.pure fun _ preparing => preparing
  | true =>
    refine Triple.perform (fun _ preparing => preparing.resumable) ?_
    intro disk preparing
    cases found : disk .save with
    | none =>
      refine ⟨preparing.gone, ?_, trivial⟩
      rw [← preparing.old, found]
      rfl
    | some entries => exact preparing

lemma clear_triple (reliable : ¬allowed .clear) :
    Triple allowed (Resumable previous latest) (Preparing previous (·.isSome)) (removeAll .clear .working false)
      fun _ => Preparing previous (· = some []) := by
  refine Triple.given fun disk preparing => ?_
  obtain ⟨entries, present⟩ := isSome_iff_exists.mp preparing.draft
  refine (removeAll_triple present false).weaken (fun _ same => same) ?_ ?_
  · rintro s ⟨entries, rfl⟩
    exact (preparing.setWorking (fun _ => True) trivial).resumable
  rintro ok s ⟨done, failed⟩
  cases ok with
  | false => exact absurd (failed rfl).1 reliable
  | true =>
    rw [done rfl]
    exact preparing.setWorking _ rfl

lemma savedataOp_triple (clears : ¬allowed .clear) (finishes : ¬allowed .finish) (request : Request) :
    Triple allowed (Resumable previous (complete request)) (Preparing previous fun _ => True) (savedataOp request)
      (Result previous (complete request)) := by
  refine Triple.bind (createSave_triple request.isNew) fun _ => ?_
  refine Triple.bind createWorking_triple fun _ => ?_
  refine Triple.bind (clear_triple clears) fun _ => ?_
  refine Triple.bind (writeFiles_triple request.files) fun ok => Triple.fact ?_
  rintro rfl
  exact commit_triple finishes (flat_built request.files) (files_built request)

end Steps

end EmuCore.Savedata
