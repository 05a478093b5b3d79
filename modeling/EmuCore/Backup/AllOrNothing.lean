import EmuCore.Backup.Restore

namespace EmuCore.Backup

open EmuCore.Util Crash List Function

lemma temporary_ne (target : Path) : temporary target ≠ target := by
  intro same
  have length := congrArg (fun path => path.name.length) same
  rw [temporary, length_append, length_cons] at length
  omega

def put (files : Files) (write : Path × Option Bytes) : Files :=
  match write.2 with
  | some content => update (update files (temporary write.1) none) write.1 (some content)
  | none => update files write.1 none

def putAll (writes : List (Path × Option Bytes)) (files : Files) : Files := writes.foldl put files

@[simp] lemma putAll_nil (files : Files) : putAll [] files = files := rfl

@[simp] lemma putAll_cons (write : Path × Option Bytes) (rest : List (Path × Option Bytes)) (files : Files) :
    putAll (write :: rest) files = putAll rest (put files write) := rfl

lemma put_target (files : Files) (write : Path × Option Bytes) : put files write write.1 = write.2 := by
  obtain ⟨path, _ | content⟩ := write <;> simp [put]

variable {files : Files}

lemma put_other {write : Path × Option Bytes} {path : Path} (differs : write.1 ≠ path)
    (beside : temporary write.1 ≠ path) : put files write path = files path := by
  obtain ⟨target, _ | content⟩ := write <;> simp [put, update_of_ne, differs.symm, beside.symm]

lemma put_beside {write : Path × Option Bytes} {path : Path} (differs : write.1 ≠ path) :
    put files write path = files path ∨ put files write path = none := by
  by_cases beside : temporary write.1 = path
  · obtain ⟨target, _ | content⟩ := write
    · exact .inl (update_of_ne differs.symm _ _)
    · refine .inr ?_
      simp only [put, update_of_ne differs.symm]
      rw [← beside, update_self]
  · exact .inl (put_other differs beside)

def Undisturbed (first second : Path) : Prop := second ≠ first ∧ temporary second ≠ first

lemma putAll_other {writes : List (Path × Option Bytes)} {path : Path}
    (clear : ∀ write ∈ writes, Undisturbed path write.1) : putAll writes files path = files path := by
  induction writes generalizing files with
  | nil => rfl
  | cons write rest ih =>
    obtain ⟨first, later⟩ := forall_mem_cons.mp clear
    rw [putAll_cons, ih later, put_other first.1 first.2]

lemma putAll_target {writes : List (Path × Option Bytes)} (ordered : writes.Pairwise fun a b => Undisturbed a.1 b.1) :
    ∀ write ∈ writes, putAll writes files write.1 = write.2 := by
  induction writes generalizing files with
  | nil => exact fun _ none => absurd none not_mem_nil
  | cons first rest ih =>
    obtain ⟨head, tail⟩ := pairwise_cons.mp ordered
    refine forall_mem_cons.mpr ⟨?_, fun write member => ih tail write member⟩
    rw [putAll_cons, putAll_other head, put_target]

def Disk.withFiles (disk : Disk) (files : Files) : Disk := { disk with files }

lemma exec_replaceFile (request : Request) (name : Bytes) (disk : Disk) :
    exec Op.apply (replaceFile request name) disk =
      disk.withFiles (put disk.files (request.target name, some (request.staged name))) := by
  have differs := temporary_ne (request.target name)
  simp only [replaceFile, exec_cons, exec_nil, Op.apply, put, Disk.withFiles, update_self]
  congr 1
  rw [update_comm differs.symm, update_idem, update_comm differs]

lemma exec_undo {change : Change} {disk : Disk} (saved : change.existed = true -> (disk.old change.name).isSome) :
    exec Op.apply (undo change) disk =
      disk.withFiles (put disk.files (change.target, if change.existed then disk.old change.name else none)) := by
  cases existed : change.existed with
  | false => simp [undo, existed, Op.apply, put, Disk.withFiles]
  | true =>
    obtain ⟨content, found⟩ := Option.isSome_iff_exists.mp (saved existed)
    have differs := temporary_ne change.target
    simp only [undo, existed, if_true, exec_cons, exec_nil, Op.apply, put, Disk.withFiles, update_self, found]
    congr 1
    rw [update_comm differs.symm, update_idem, update_comm differs]

def staging (request : Request) : List (Path × Option Bytes) :=
  request.selected.map fun name => (request.target name, some (request.staged name))

lemma exec_replaceFiles (request : Request) (disk : Disk) :
    exec Op.apply (replaceFiles request) disk = disk.withFiles (putAll (staging request) disk.files) := by
  rw [replaceFiles, staging]
  induction request.selected generalizing disk with
  | nil => rfl
  | cons name rest ih =>
    rw [flatMap_cons, exec_append, exec_replaceFile, ih, map_cons, putAll_cons]
    rfl

def undoing (old : Bytes -> Option Bytes) (changes : List Change) : List (Path × Option Bytes) :=
  changes.map fun change => (change.target, if change.existed then old change.name else none)

lemma exec_undoAll {changes : List Change} {disk : Disk}
    (saved : ∀ change ∈ changes, change.existed = true -> (disk.old change.name).isSome) :
    exec Op.apply (changes.flatMap undo) disk = disk.withFiles (putAll (undoing disk.old changes) disk.files) := by
  induction changes generalizing disk with
  | nil => rfl
  | cons change rest ih =>
    obtain ⟨first, later⟩ := forall_mem_cons.mp saved
    let after := disk.withFiles
      (put disk.files (change.target, if change.existed then disk.old change.name else none))
    have further : exec Op.apply (rest.flatMap undo) after =
        after.withFiles (putAll (undoing after.old rest) after.files) := ih later
    rw [flatMap_cons, exec_append, exec_undo first]
    exact further

lemma restoredFont (files : Files) (settings : Settings) :
    (restoreJson files (exportJson settings)).appFont = .system ∧
      (restoreJson files (exportJson settings)).customFontPath = none := by
  have never : (exportJson settings).appFont ≠ .custom := by
    rw [exportJson]
    dsimp only
    split
    next => decide
    next other => exact other
  cases path : (exportJson settings).customFontPath <;> simp [restoreJson, path, never]

lemma restoredBackground (files : Files) (settings : Settings) :
    (restoreJson files (exportJson settings)).backgroundPath = settings.backgroundPath ∧
        (restoreJson files (exportJson settings)).backgroundMimeType = settings.backgroundMimeType ↔
      (settings.backgroundPath = none ∧ settings.backgroundMimeType = none) ∨
        ∃ path mimeType, settings.backgroundPath = some path ∧ settings.backgroundMimeType = some mimeType ∧
          isFile files path = true := by
  obtain ⟨plain, font, fontPath, _ | path, _ | mimeType⟩ := settings
  · simp [restoreJson, exportJson]
  · simp [restoreJson, exportJson]
  · simp [restoreJson, exportJson]
  · cases present : isFile files path <;> simp [restoreJson, exportJson, present]

lemma restoreJson_exportJson (files : Files) (settings : Settings) :
    restoreJson files (exportJson settings) = settings ↔
      settings.appFont = .system ∧ settings.customFontPath = none ∧
        ((settings.backgroundPath = none ∧ settings.backgroundMimeType = none) ∨
          ∃ path mimeType, settings.backgroundPath = some path ∧ settings.backgroundMimeType = some mimeType ∧
            isFile files path = true) := by
  obtain ⟨font, fontPath⟩ := restoredFont files settings
  have background := restoredBackground files settings
  constructor
  · intro same
    rw [same] at font fontPath background
    exact ⟨font, fontPath, background.mp ⟨rfl, rfl⟩⟩
  rintro ⟨plainFont, noPath, kept⟩
  obtain ⟨path, mimeType⟩ := background.mpr kept
  generalize result : restoreJson files (exportJson settings) = after at font fontPath path mimeType
  have plain : after.plain = settings.plain := by
    rw [← result]
    rfl
  obtain ⟨_, _, _, _, _⟩ := after
  obtain ⟨_, _, _, _, _⟩ := settings
  simp_all

variable (request : Request) (before : Disk)

def AsBefore (after : Disk) : Prop :=
  (∀ name ∈ request.selected, after.files (request.target name) = before.files (request.target name)) ∧
    after.settings = before.settings

def AsBackup (after : Disk) : Prop :=
  (∀ name ∈ request.selected, after.files (request.target name) = some (request.staged name)) ∧
    after.settings = request.restored (exec Op.apply (replaceFiles request) before).files before.settings

def AllOrNothing : Prop :=
  (∀ stopped, Dies Op.apply Op.Torn (uncommitted request before) before stopped ->
      ∀ final, Recovers stopped final -> AsBefore request before final) ∧
    ∀ stopped, Dies Op.apply Op.Torn [.deleteJournal]
        (exec Op.apply (uncommitted request before ++ [.commit (request.changes before)]) before) stopped ->
      ∀ final, Recovers stopped final -> AsBackup request before final

variable {request before}

def Settled (disk : Disk) : Prop := ∀ record ∈ disk.journal, record.committed = true

variable {op : Op}

lemma recoverPending_settled {disk : Disk} (settled : Settled disk) (member : op ∈ recoverPending disk) :
    op = .deleteJournal := by
  cases found : disk.journal with
  | none =>
    rw [recoverPending, found] at member
    cases member
  | some record =>
    have committed := settled record found
    simpa [recoverPending, found, committed] using member

def Calm (disk : Disk) (now : Disk) : Prop := Settled now ∧ now.files = disk.files ∧ now.settings = disk.settings

lemma calm_recoverPending {disk : Disk} (settled : Settled disk) :
    ∀ op ∈ recoverPending disk, ∀ now, Calm disk now -> Calm disk (op.apply now) := by
  intro op member now calm
  rw [recoverPending_settled settled member]
  exact ⟨fun record none => absurd none (by simp [Op.apply]), calm.2⟩

lemma recovers_settled {disk final : Disk} (settled : Settled disk) (recovers : Recovers disk final) :
    final.files = disk.files ∧ final.settings = disk.settings := by
  induction recovers with
  | through disk => exact (exec_keeps (Calm disk) (calm_recoverPending settled) ⟨settled, rfl, rfl⟩).2
  | @again disk after final dies _ ih =>
    obtain ⟨calm, files, settings⟩ : Calm disk after := by
      refine Dies.keeps (Calm disk) (calm_recoverPending settled) ?_ dies ⟨settled, rfl, rfl⟩
      intro op member now later _ torn
      rw [recoverPending_settled settled member] at torn
      cases torn
    obtain ⟨moreFiles, moreSettings⟩ := ih calm
    exact ⟨moreFiles.trans files, moreSettings.trans settings⟩

def Op.OnTargets (request : Request) : Op -> Prop
  | .copyStaged target _ => ∃ name ∈ request.selected, request.target name = target
  | .copyOld target _ => ∃ name ∈ request.selected, request.target name = target
  | .move target => ∃ name ∈ request.selected, request.target name = target
  | .delete target => ∃ name ∈ request.selected, request.target name = target
  | .applySettings _ => True
  | .rollbackSettings => True
  | _ => False

structure Pending (request : Request) (before now : Disk) : Prop where
  journal : now.journal = some ⟨request.changes before, false⟩
  old : ∀ name ∈ request.selected, isFile before.files (request.target name) = true ->
    now.old name = before.files (request.target name)
  settings : now.oldSettings = some (exportJson before.settings)
  untouched : ∀ path, (∀ name ∈ request.selected, Undisturbed path (request.target name)) ->
    now.files path = before.files path

variable {now : Disk} (pending : Pending request before now)

include pending

lemma Pending.apply (onTargets : op.OnTargets request) :
    Pending request before (op.apply now) := by
  have away : ∀ {path target : Path}, (∃ name ∈ request.selected, request.target name = target) ->
      (∀ name ∈ request.selected, Undisturbed path (request.target name)) -> Undisturbed path target := by
    rintro path target ⟨name, member, rfl⟩ clear
    exact clear name member
  refine ⟨?_, ?_, ?_, fun path clear => ?_⟩
  · cases op <;> first | exact pending.journal | exact onTargets.elim
  · cases op <;> first | exact pending.old | exact onTargets.elim
  · cases op <;> first | exact pending.settings | exact onTargets.elim
  refine Eq.trans ?_ (pending.untouched path clear)
  cases op with
  | copyStaged target content | copyOld target name => exact update_of_ne (away onTargets clear).2.symm _ _
  | move target =>
    have apart := away onTargets clear
    exact (update_of_ne apart.2.symm _ _).trans (update_of_ne apart.1.symm _ _)
  | delete target => exact update_of_ne (away onTargets clear).1.symm _ _
  | applySettings restored | rollbackSettings => rfl
  | _ => exact onTargets.elim

lemma Pending.torn (onTargets : op.OnTargets request) {later : Disk}
    (torn : op.Torn now later) : Pending request before later := by
  have replaced : ∀ {target : Path} (content : Option Bytes), (∃ name ∈ request.selected, request.target name = target) ->
      Pending request before { now with files := update now.files (temporary target) content } := by
    rintro target content ⟨name, member, rfl⟩
    refine { pending with untouched := fun path clear => ?_ }
    exact (update_of_ne (clear name member).2.symm _ _).trans (pending.untouched path clear)
  cases torn with
  | clear | saveFile => exact onTargets.elim
  | copyStaged | copyOld | move => exact replaced _ onTargets

lemma Pending.afterAll {ops : List Op} (onTargets : ∀ op ∈ ops, op.OnTargets request) : Pending request before (exec Op.apply ops now) :=
  exec_keeps (Pending request before) (fun op member _ now => now.apply (onTargets op member)) pending

lemma Pending.wherever {ops : List Op} (onTargets : ∀ op ∈ ops, op.OnTargets request) {later : Disk}
    (dies : Dies Op.apply Op.Torn ops now later) :
    Pending request before later :=
  dies.keeps (Pending request before) (fun op member _ now => now.apply (onTargets op member))
    (fun op member _ _ now => now.torn (onTargets op member)) pending

def Request.Ordered (request : Request) : Prop :=
  request.selected.Pairwise fun first second => Undisturbed (request.target first) (request.target second)

def Request.Keeps (request : Request) (settings : Settings) : Prop :=
  settings.appFont = .system ∧ settings.customFontPath = none ∧
    ((settings.backgroundPath = none ∧ settings.backgroundMimeType = none) ∨
      ∃ path mimeType, settings.backgroundPath = some path ∧ settings.backgroundMimeType = some mimeType ∧
        ((∃ name ∈ request.selected, request.target name = path) ∨
          ∀ name ∈ request.selected, temporary (request.target name) ≠ path))

-- A background is shown only while its file exists.
def Disk.Present (disk : Disk) : Prop :=
  ∀ path, disk.settings.backgroundPath = some path -> isFile disk.files path = true

omit pending

lemma undo_onTargets (member : op ∈ (request.changes before).flatMap undo) : op.OnTargets request := by
  obtain ⟨change, among, inside⟩ := mem_flatMap.mp member
  obtain ⟨name, selected, rfl⟩ := mem_map.mp among
  rw [undo] at inside
  split at inside
  next =>
    rcases mem_cons.mp inside with rfl | last
    · exact ⟨name, selected, rfl⟩
    · rw [mem_singleton.mp last]
      exact ⟨name, selected, rfl⟩
  next =>
    rw [mem_singleton.mp inside]
    exact ⟨name, selected, rfl⟩

def rollback (request : Request) (before : Disk) : List Op :=
  (request.changes before).flatMap undo ++ [.rollbackSettings]

lemma rollback_onTargets : ∀ op ∈ rollback request before, op.OnTargets request := by
  intro op member
  rcases mem_append.mp member with undone | last
  · exact undo_onTargets undone
  · rw [mem_singleton.mp last]
    trivial

include pending

lemma Pending.recoverPending :
    recoverPending now = rollback request before ++ [.deleteJournal] := by
  rw [Backup.recoverPending, pending.journal]
  rfl

def returning (request : Request) (before : Disk) : List (Path × Option Bytes) :=
  request.selected.map fun name => (request.target name, before.files (request.target name))

lemma Pending.undoing :
    undoing now.old (request.changes before) = returning request before := by
  rw [Backup.undoing, Request.changes, map_map]
  refine map_congr_left fun name member => ?_
  rw [comp_apply]
  cases existed : isFile before.files (request.target name) with
  | true => rw [if_pos rfl, pending.old name member existed]
  | false =>
    have missing : before.files (request.target name) = none :=
      Option.isNone_iff_eq_none.mp (Option.isSome_eq_false_iff.mp existed)
    rw [if_neg Bool.false_ne_true, missing]

lemma Pending.rollback :
    (exec Op.apply (rollback request before) now).files = putAll (returning request before) now.files ∧
      (exec Op.apply (Backup.rollback request before) now).settings =
        restoreJson (putAll (returning request before) now.files) (exportJson before.settings) := by
  have undone : exec Op.apply ((request.changes before).flatMap undo) now =
      now.withFiles (putAll (returning request before) now.files) := by
    rw [← pending.undoing]
    refine exec_undoAll fun change member existed => ?_
    obtain ⟨name, selected, rfl⟩ := mem_map.mp member
    rw [pending.old name selected existed]
    exact existed
  rw [Backup.rollback, exec_append, undone]
  refine ⟨rfl, ?_⟩
  change (now.oldSettings.map _).getD _ = _
  rw [pending.settings]
  rfl

section

variable (ordered : request.Ordered) (keeps : request.Keeps before.settings) (present : before.Present)

include ordered keeps present

lemma Pending.rolledBack :
    AsBefore request before (exec Op.apply (Backup.rollback request before) now) := by
  have targets : ∀ name ∈ request.selected,
      putAll (returning request before) now.files (request.target name) = before.files (request.target name) := by
    intro name member
    have pairs : (returning request before).Pairwise fun a b => Undisturbed a.1 b.1 := pairwise_map.mpr ordered
    exact putAll_target pairs _ (mem_map_of_mem member)
  obtain ⟨files, settings⟩ := pending.rollback
  refine ⟨fun name member => by rw [files, targets name member], ?_⟩
  rw [settings, restoreJson_exportJson]
  refine ⟨keeps.1, keeps.2.1, keeps.2.2.imp_right ?_⟩
  rintro ⟨path, mimeType, known, typed, survives⟩
  refine ⟨path, mimeType, known, typed, ?_⟩
  have there := present path known
  by_cases among : ∃ name ∈ request.selected, request.target name = path
  · obtain ⟨name, member, rfl⟩ := among
    rw [isFile, targets name member]
    exact there
  have beside := survives.resolve_left among
  have apart : ∀ name ∈ request.selected, Undisturbed path (request.target name) := fun name member =>
    ⟨fun same => among ⟨name, member, same⟩, beside name member⟩
  have same : putAll (returning request before) now.files path = now.files path := by
    refine putAll_other fun write member => ?_
    obtain ⟨name, selected, rfl⟩ := mem_map.mp member
    exact apart name selected
  rw [isFile, same, pending.untouched path apart]
  exact there

lemma recovers_pending {final : Disk} (recovers : Recovers now final) :
    AsBefore request before final := by
  induction recovers with
  | through now =>
    rw [pending.recoverPending, exec_append]
    exact pending.rolledBack ordered keeps present
  | @again now after final dies recovers ih =>
    rw [pending.recoverPending] at dies
    rcases dies.append with early | late
    · exact ih (pending.wherever rollback_onTargets early)
    cases late with
    | stop => exact ih (pending.afterAll rollback_onTargets)
    | torn _ broken => cases broken
    | step later =>
      cases later
      have back := pending.rolledBack ordered keeps present
      obtain ⟨files, settings⟩ := recovers_settled (fun record none => absurd none (by simp [Op.apply])) recovers
      exact ⟨fun name member => (congrFun files _).trans (back.1 name member), settings.trans back.2⟩

end

end EmuCore.Backup
