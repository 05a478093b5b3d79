import EmuCore.Backup.AllOrNothing

namespace EmuCore.Backup

open EmuCore.Util Crash List Function

variable {request : Request} {before : Disk}

def Quiet (before now : Disk) : Prop :=
  now.journal = none ∧ now.files = before.files ∧ now.settings = before.settings

def prepare (request : Request) (before : Disk) : List Op :=
  [.clear, .saveSettings] ++ saveOld (request.changes before)

lemma uncommitted_eq : uncommitted request before =
    prepare request before ++ ([.publish (request.changes before)] ++
      (replaceFiles request ++ [.applySettings request.restored])) := by
  simp only [uncommitted, prepare, append_assoc]

lemma mem_prepare {op : Op} (member : op ∈ prepare request before) :
    op = .clear ∨ op = .saveSettings ∨ ∃ name target, op = .saveFile name target := by
  rcases mem_append.mp member with start | saved
  · rcases mem_cons.mp start with first | second
    · exact .inl first
    · exact .inr (.inl (mem_singleton.mp second))
  · obtain ⟨change, -, inside⟩ := mem_flatMap.mp saved
    split at inside
    next => exact .inr (.inr ⟨_, _, mem_singleton.mp inside⟩)
    next => cases inside

lemma quiet_apply : ∀ op ∈ prepare request before, ∀ now, Quiet before now -> Quiet before (op.apply now) := by
  intro op member now quiet
  rcases mem_prepare member with rfl | rfl | ⟨name, target, rfl⟩
  · exact ⟨rfl, quiet.2⟩
  · exact quiet
  · exact quiet

lemma quiet_torn : ∀ op ∈ prepare request before, ∀ now later, Quiet before now -> op.Torn now later ->
    Quiet before later := by
  intro op member now later quiet torn
  rcases mem_prepare member with rfl | rfl | ⟨name, target, rfl⟩ <;> cases torn <;> exact quiet

lemma Quiet.asBefore {now final : Disk} (quiet : Quiet before now) (recovers : Recovers now final) :
    AsBefore request before final := by
  have settled : Settled now := fun record found => by simp [quiet.1] at found
  obtain ⟨files, settings⟩ := recovers_settled settled recovers
  exact ⟨fun name _ => congrFun (files.trans quiet.2.1) _, settings.trans quiet.2.2⟩

def savedOld (files : Files) (changes : List Change) (old : Bytes -> Option Bytes) : Bytes -> Option Bytes :=
  changes.foldl
    (fun old change => if change.existed then Function.update old change.name (files change.target) else old) old

lemma savedOld_cons (files : Files) (change : Change) (rest : List Change) (old : Bytes -> Option Bytes) :
    savedOld files (change :: rest) old = savedOld files rest
      (if change.existed then update old change.name (files change.target) else old) := rfl

lemma exec_saveOld (changes : List Change) (disk : Disk) :
    exec Op.apply (saveOld changes) disk = { disk with old := savedOld disk.files changes disk.old } := by
  induction changes generalizing disk with
  | nil => rfl
  | cons change rest ih =>
    rw [saveOld, flatMap_cons, exec_append, ← saveOld, ih, savedOld_cons]
    split <;> rfl

variable {files : Files} {target : Bytes -> Path}

section

variable {changes : List Change} (placed : ∀ change ∈ changes, change.target = target change.name) {old : Bytes -> Option Bytes}

include placed

lemma savedOld_keeps {name : Bytes} (saved : old name = files (target name)) :
    savedOld files changes old name = files (target name) := by
  induction changes generalizing old with
  | nil => exact saved
  | cons change rest ih =>
    obtain ⟨first, later⟩ := forall_mem_cons.mp placed
    rw [savedOld_cons]
    refine ih later ?_
    split
    next =>
      by_cases same : name = change.name
      · rw [same, update_self, first]
      · rw [update_of_ne same, saved]
    next => exact saved

lemma savedOld_saves :
    ∀ change ∈ changes, change.existed = true -> savedOld files changes old change.name = files (target change.name) := by
  induction changes generalizing old with
  | nil => exact fun _ none => absurd none not_mem_nil
  | cons first rest ih =>
    obtain ⟨here, later⟩ := forall_mem_cons.mp placed
    refine forall_mem_cons.mpr ⟨fun existed => ?_, fun change member => ih later change member⟩
    rw [savedOld_cons, if_pos existed]
    exact savedOld_keeps later (by rw [update_self, here])

end

lemma published : Pending request before
    (exec Op.apply [.publish (request.changes before)] (exec Op.apply (prepare request before) before)) := by
  have placed : ∀ change ∈ request.changes before, change.target = request.target change.name := by
    intro change member
    obtain ⟨name, -, rfl⟩ := mem_map.mp member
    rfl
  rw [prepare, exec_append, exec_saveOld]
  refine ⟨rfl, fun name member existed => ?_, rfl, fun _ _ => rfl⟩
  exact savedOld_saves placed ⟨name, request.target name, _⟩ (mem_map_of_mem member) existed

lemma replacing_onTargets :
    ∀ op ∈ replaceFiles request ++ [.applySettings request.restored], op.OnTargets request := by
  intro op member
  rcases mem_append.mp member with replaced | last
  · obtain ⟨name, selected, inside⟩ := mem_flatMap.mp replaced
    rcases mem_cons.mp inside with rfl | second
    · exact ⟨name, selected, rfl⟩
    · rw [mem_singleton.mp second]
      exact ⟨name, selected, rfl⟩
  · rw [mem_singleton.mp last]
    trivial

lemma dies_uncommitted {stopped : Disk} (none : before.journal = none)
    (dies : Dies Op.apply Op.Torn (uncommitted request before) before stopped) :
    Quiet before stopped ∨ Pending request before stopped := by
  rw [uncommitted_eq] at dies
  rcases dies.append with preparing | dies
  · exact .inl (preparing.keeps (Quiet before) quiet_apply quiet_torn ⟨none, rfl, rfl⟩)
  rcases dies.append with publishing | replacing
  · cases publishing with
    | stop => exact .inl (exec_keeps (Quiet before) quiet_apply ⟨none, rfl, rfl⟩)
    | torn _ broken => cases broken
    | step later =>
      cases later
      exact .inr published
  · exact .inr (published.wherever replacing_onTargets replacing)

lemma exec_uncommitted (request : Request) (before : Disk) :
    (exec Op.apply (uncommitted request before) before).files = putAll (staging request) before.files ∧
      (exec Op.apply (uncommitted request before) before).settings =
        request.restored (putAll (staging request) before.files) before.settings := by
  rw [uncommitted_eq, exec_append, exec_append, exec_append, exec_replaceFiles, prepare, exec_append, exec_saveOld]
  exact ⟨rfl, rfl⟩

lemma asBackup_iff {after : Disk} (files : after.files = putAll (staging request) before.files)
    (settings : after.settings = request.restored (putAll (staging request) before.files) before.settings) :
    AsBackup request before after ↔ ∀ name ∈ request.selected,
      putAll (staging request) before.files (request.target name) = some (request.staged name) := by
  rw [AsBackup, files, settings, exec_replaceFiles]
  exact and_iff_left rfl

lemma recovers_committed {stopped final : Disk} (dies : Dies Op.apply Op.Torn [.deleteJournal]
      (exec Op.apply (uncommitted request before ++ [.commit (request.changes before)]) before) stopped)
    (recovers : Recovers stopped final) :
    final.files = putAll (staging request) before.files ∧
      final.settings = request.restored (putAll (staging request) before.files) before.settings := by
  obtain ⟨files, settings⟩ := exec_uncommitted request before
  rw [exec_append] at dies
  generalize exec Op.apply (uncommitted request before) before = done at dies files settings
  have calm : Settled stopped ∧ stopped.files = done.files ∧ stopped.settings = done.settings := by
    cases dies with
    | stop =>
      refine ⟨fun record found => ?_, rfl, rfl⟩
      rw [← Option.some.inj found]
    | torn _ broken => cases broken
    | step later =>
      cases later
      exact ⟨fun record found => absurd found (by simp [Op.apply]), rfl, rfl⟩
  obtain ⟨moreFiles, moreSettings⟩ := recovers_settled calm.1 recovers
  exact ⟨moreFiles.trans (calm.2.1.trans files), moreSettings.trans (calm.2.2.trans settings)⟩

lemma allOrNothing_of_ordered (ordered : request.Ordered) (keeps : request.Keeps before.settings)
    (none : before.journal = none) (present : before.Present) : AllOrNothing request before := by
  constructor
  · intro stopped dies final recovers
    rcases dies_uncommitted none dies with quiet | pending
    · exact quiet.asBefore recovers
    · exact recovers_pending pending ordered keeps present recovers
  · intro stopped dies final recovers
    obtain ⟨files, settings⟩ := recovers_committed dies recovers
    refine (asBackup_iff files settings).mpr fun name member => ?_
    have pairs : (staging request).Pairwise fun a b => Undisturbed a.1 b.1 := pairwise_map.mpr ordered
    exact putAll_target pairs _ (mem_map_of_mem member)

variable {path : Path} {writes : List (Path × Option Bytes)}

lemma putAll_ne {content : Bytes} (absent : ∀ write ∈ writes, write.2 ≠ some content)
    (start : files path ≠ some content) :
    putAll writes files path ≠ some content := by
  induction writes generalizing files with
  | nil => exact start
  | cons write rest ih =>
    obtain ⟨first, later⟩ := forall_mem_cons.mp absent
    rw [putAll_cons]
    refine ih later ?_
    by_cases aimed : write.1 = path
    · rw [← aimed, put_target]
      exact first
    rcases put_beside aimed with same | gone
    · rwa [same]
    · rw [gone]
      simp

variable {write : Path × Option Bytes}

lemma put_disturbed (disturbed : ¬Undisturbed path write.1) (some_content : write.2.isSome) :
    put files write path = write.2 ∨ put files write path = none := by
  by_cases aimed : write.1 = path
  · exact .inl (by rw [← aimed, put_target])
  have beside : temporary write.1 = path := by
    by_contra apart
    exact disturbed ⟨aimed, apart⟩
  obtain ⟨target, _ | content⟩ := write
  · cases some_content
  · refine .inr ?_
    simp only [put, update_of_ne (Ne.symm aimed)]
    rw [← beside, update_self]

lemma putAll_lost {content : Bytes} (absent : ∀ write ∈ writes, write.2 ≠ some content) (member : write ∈ writes)
    (disturbed : ¬Undisturbed path write.1) (some_content : write.2.isSome) :
    putAll writes files path ≠ some content := by
  induction writes generalizing files with
  | nil => cases member
  | cons first rest ih =>
    obtain ⟨here, later⟩ := forall_mem_cons.mp absent
    rw [putAll_cons]
    rcases mem_cons.mp member with rfl | inside
    · refine putAll_ne later ?_
      rcases put_disturbed disturbed some_content with same | gone
      · rwa [same]
      · rw [gone]
        simp
    · exact ih later inside

lemma putAll_gone (apart : ∀ write ∈ writes, write.1 ≠ path) (start : files path = none) :
    putAll writes files path = none := by
  induction writes generalizing files with
  | nil => exact start
  | cons write rest ih =>
    obtain ⟨first, later⟩ := forall_mem_cons.mp apart
    rw [putAll_cons]
    refine ih later ?_
    rcases put_beside first with same | gone
    · rw [same, start]
    · exact gone

lemma putAll_beside (files : Files) (apart : ∀ write ∈ writes, write.1 ≠ path) (member : write ∈ writes)
    (beside : temporary write.1 = path) (some_content : write.2.isSome) : putAll writes files path = none := by
  induction writes generalizing files with
  | nil => cases member
  | cons first rest ih =>
    obtain ⟨here, later⟩ := forall_mem_cons.mp apart
    rw [putAll_cons]
    rcases mem_cons.mp member with rfl | inside
    · refine putAll_gone later ?_
      obtain ⟨target, _ | content⟩ := write
      · cases some_content
      · simp only [put, update_of_ne here.symm]
        rw [← beside, update_self]
    · exact ih (put files first) later inside

def marked (name : Bytes) : Bytes := 1 :: name

def everywhere (settings : Settings) : Disk where
  files := fun _ => some [0]
  settings := settings
  old := fun _ => none
  oldSettings := none
  journal := none

lemma ordered_of_marked {names : List Bytes} (distinct : names.Nodup)
    (placed : ∀ name ∈ names,
      putAll (names.map fun name => (target name, some (marked name))) files (target name) = some (marked name)) :
    names.Pairwise fun first second => Undisturbed (target first) (target second) := by
  induction names generalizing files with
  | nil => exact List.Pairwise.nil
  | cons name rest ih =>
    obtain ⟨fresh, distinct⟩ := nodup_cons.mp distinct
    obtain ⟨here, later⟩ := forall_mem_cons.mp placed
    refine pairwise_cons.mpr ⟨fun other member => ?_, ih distinct later⟩
    by_contra disturbed
    refine putAll_lost ?_ (mem_map_of_mem member) disturbed rfl here
    intro write among same
    obtain ⟨another, inside, rfl⟩ := mem_map.mp among
    have equal : another = name := cons_injective (Option.some.inj same)
    exact fresh (equal ▸ inside)

lemma ordered_of_allOrNothing {settings : Settings}
    (whole : AllOrNothing { request with staged := marked } (everywhere settings)) : request.Ordered := by
  have final := whole.2 _ (.stop _ _) _ (.through _)
  obtain ⟨files, restored⟩ := recovers_committed (.stop _ _) (.through _)
  exact ordered_of_marked (request.distinct.filter _) ((asBackup_iff files restored).mp final)

lemma keeps_of_allOrNothing {settings : Settings} (whole : AllOrNothing request (everywhere settings)) :
    request.Keeps settings := by
  have pending : Pending request (everywhere settings) _ := published
  have dies : Dies Op.apply Op.Torn (uncommitted request (everywhere settings)) (everywhere settings)
      (exec Op.apply [.publish (request.changes (everywhere settings))]
        (exec Op.apply (prepare request (everywhere settings)) (everywhere settings))) := by
    rw [uncommitted_eq]
    exact .after (.step (.stop _ _))
  have back : (exec Op.apply _ _).settings = settings := (whole.1 _ dies _ (.through _)).2
  rw [pending.recoverPending, exec_append] at back
  obtain ⟨font, fontPath, background⟩ := (restoreJson_exportJson _ _).mp (pending.rollback.2.symm.trans back)
  refine ⟨font, fontPath, background.imp_right ?_⟩
  rintro ⟨path, mimeType, known, typed, there⟩
  refine ⟨path, mimeType, known, typed, ?_⟩
  by_contra neither
  simp only [not_or, not_exists, not_and, not_forall, not_not] at neither
  obtain ⟨apart, name, member, beside⟩ := neither
  have others : ∀ write ∈ returning request (everywhere settings), write.1 ≠ path := by
    intro write among
    obtain ⟨other, inside, rfl⟩ := mem_map.mp among
    exact apart other inside
  rw [isFile, putAll_beside _ others (mem_map_of_mem member) beside rfl] at there
  cases there

-- For every backup and every disk, exactly when replacing one file disturbs none of those before it and the old
-- settings survive their export.
theorem restore_all_or_nothing_iff (request : Request) (settings : Settings) :
    (∀ staged before, before.journal = none -> before.settings = settings -> before.Present ->
        AllOrNothing { request with staged } before) ↔
      request.Ordered ∧ request.Keeps settings := by
  constructor
  · intro whole
    have there : (everywhere settings).Present := fun _ _ => rfl
    exact ⟨ordered_of_allOrNothing (whole marked (everywhere settings) rfl rfl there),
      keeps_of_allOrNothing (whole request.staged (everywhere settings) rfl rfl there)⟩
  · rintro ⟨ordered, keeps⟩ staged before none rfl present
    exact allOrNothing_of_ordered ordered keeps none present

def plainSettings : Settings where
  plain := ⟨[], [], []⟩
  appFont := .system
  customFontPath := none
  backgroundPath := none
  backgroundMimeType := none

def saveName (file : Bytes) : Bytes := "save-data/1/savedata/".toUTF8.toList ++ file

def clashing : Request where
  names := [saveName ".x.drive-restore".toUTF8.toList, saveName "x".toUTF8.toList]
  distinct := by decide +kernel
  categories := ["save-data".toUTF8.toList]
  roots := ["save-data".toUTF8.toList]
  target := fun name => ⟨"savedata".toUTF8.toList, name.drop 21⟩
  staged := marked
  restored := fun _ settings => settings

theorem restore_loses :
    (exec Op.apply (restore clashing (everywhere plainSettings)) (everywhere plainSettings)).files
        (clashing.target (saveName ".x.drive-restore".toUTF8.toList)) = none ∧
      ∃ stopped, Dies Op.apply Op.Torn (uncommitted { clashing with categories := [] }
          (everywhere { plainSettings with appFont := .rubik })) (everywhere { plainSettings with appFont := .rubik })
          stopped ∧
        ∃ final, Recovers stopped final ∧ final.settings.appFont = .system := by
  refine ⟨by decide +kernel, _, .step (.step (.step (.stop _ _))), _, .through _, rfl⟩

end EmuCore.Backup
