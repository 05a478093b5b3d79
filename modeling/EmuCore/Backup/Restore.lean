import EmuCore.Lib.Crash
import EmuCore.Util.Stream

namespace EmuCore.Backup

open EmuCore.Util Function

structure Path where
  parent : Bytes
  name : Bytes
deriving DecidableEq

abbrev Files := Path -> Option Bytes

def isFile (files : Files) (path : Path) : Bool := (files path).isSome

-- `.name.drive-restore` beside the target.
def temporary (target : Path) : Path := ⟨target.parent, 0x2e :: target.name ++ ".drive-restore".toUTF8.toList⟩

inductive AppFont
  | system
  | rubik
  | exo2
  | custom
deriving DecidableEq

-- Theme, language, keyboard and mouse; controls and core overrides; sizes and styles. A restore copies these.
structure Plain where
  app : Bytes
  core : Bytes
  customization : Bytes

structure Settings where
  plain : Plain
  appFont : AppFont
  customFontPath : Option Path
  backgroundPath : Option Path
  backgroundMimeType : Option Bytes

def exportJson (current : Settings) : Settings :=
  { current with appFont := if current.appFont = .custom then .system else current.appFont }

-- For a payload that `exportJson` wrote, applied as a whole. It always has the keys of the font and the background.
def restoreJson (files : Files) (root : Settings) : Settings :=
  let font : AppFont × Option Path :=
    match root.customFontPath with
    | some path => if root.appFont = .custom && isFile files path then (.custom, some path) else (.system, none)
    | none => (.system, none)
  let background : Option Path × Option Bytes :=
    match root.backgroundPath, root.backgroundMimeType with
    | some path, some mimeType => if isFile files path then (some path, some mimeType) else (none, none)
    | _, _ => (none, none)
  { plain := root.plain
    appFont := font.1
    customFontPath := font.2
    backgroundPath := background.1
    backgroundMimeType := background.2 }

structure Change where
  name : Bytes
  target : Path
  existed : Bool

structure Journal where
  changes : List Change
  committed : Bool

-- The transaction directory holds the old files by name, the old settings and the journal.
structure Disk where
  files : Files
  settings : Settings
  old : Bytes -> Option Bytes
  oldSettings : Option Settings
  journal : Option Journal

inductive Op
  | clear
  | saveSettings
  | saveFile (name : Bytes) (target : Path)
  | publish (changes : List Change)
  | copyStaged (target : Path) (content : Bytes)
  | copyOld (target : Path) (name : Bytes)
  | move (target : Path)
  | delete (target : Path)
  | applySettings (restored : Files -> Settings -> Settings)
  | rollbackSettings
  | commit (changes : List Change)
  | deleteJournal

def Op.apply (op : Op) (disk : Disk) : Disk :=
  match op with
  | .clear => { disk with old := fun _ => none, oldSettings := none, journal := none }
  | .saveSettings => { disk with oldSettings := some (exportJson disk.settings) }
  | .saveFile name target => { disk with old := update disk.old name (disk.files target) }
  | .publish changes => { disk with journal := some ⟨changes, false⟩ }
  | .copyStaged target content => { disk with files := update disk.files (temporary target) (some content) }
  | .copyOld target name => { disk with files := update disk.files (temporary target) (disk.old name) }
  | .move target =>
    { disk with files :=
      Function.update (Function.update disk.files target (disk.files (temporary target))) (temporary target) none }
  | .delete target => { disk with files := update disk.files target none }
  | .applySettings restored => { disk with settings := restored disk.files disk.settings }
  | .rollbackSettings => { disk with settings := (disk.oldSettings.map (restoreJson disk.files)).getD disk.settings }
  | .commit changes => { disk with journal := some ⟨changes, true⟩ }
  | .deleteJournal => { disk with journal := none }

-- The rest is atomic. A copy that fails leaves anything in the temporary file, or deletes it, and so does a move.
inductive Op.Torn : Op -> Disk -> Disk -> Prop
  | clear (disk : Disk) (old : Bytes -> Option Bytes) (oldSettings : Option Settings) :
    Torn .clear disk { disk with old, oldSettings }
  | saveFile (disk : Disk) (name : Bytes) (target : Path) (content : Option Bytes) :
    Torn (.saveFile name target) disk { disk with old := update disk.old name content }
  | copyStaged (disk : Disk) (target : Path) (whole : Bytes) (content : Option Bytes) :
    Torn (.copyStaged target whole) disk
      { disk with files := update disk.files (temporary target) content }
  | copyOld (disk : Disk) (target : Path) (name : Bytes) (content : Option Bytes) :
    Torn (.copyOld target name) disk { disk with files := update disk.files (temporary target) content }
  | move (disk : Disk) (target : Path) (content : Option Bytes) :
    Torn (.move target) disk { disk with files := update disk.files (temporary target) content }

def undo (change : Change) : List Op :=
  if change.existed then [.copyOld change.target change.name, .move change.target] else [.delete change.target]

def recoverPending (disk : Disk) : List Op :=
  match disk.journal with
  | none => []
  | some record =>
    (if record.committed then [] else record.changes.flatMap undo ++ [.rollbackSettings]) ++ [.deleteJournal]

inductive Recovers : Disk -> Disk -> Prop
  | through (disk : Disk) : Recovers disk (Crash.exec Op.apply (recoverPending disk) disk)
  | again {disk after final : Disk} (dies : Crash.Dies Op.apply Op.Torn (recoverPending disk) disk after)
    (recovers : Recovers after final) : Recovers disk final

-- The names of the manifest differ. Where a name goes on this device, what the stage holds of it and what becomes
-- of the settings are the device's and the backup's matter.
structure Request where
  names : List Bytes
  distinct : names.Nodup
  categories : List Bytes
  roots : List Bytes
  target : Bytes -> Path
  staged : Bytes -> Bytes
  restored : Files -> Settings -> Settings

def categoryOf (name : Bytes) : Bytes := name.takeWhile (· ≠ 0x2f)

def Request.selected (request : Request) : List Bytes :=
  request.names.filter fun name => request.categories.contains (categoryOf name) && request.roots.contains (categoryOf name)

def Request.changes (request : Request) (disk : Disk) : List Change :=
  request.selected.map fun name => ⟨name, request.target name, isFile disk.files (request.target name)⟩

def saveOld (changes : List Change) : List Op :=
  changes.flatMap fun change => if change.existed then [.saveFile change.name change.target] else []

variable (request : Request)

def replaceFile (name : Bytes) : List Op :=
  [.copyStaged (request.target name) (request.staged name), .move (request.target name)]

def replaceFiles : List Op := request.selected.flatMap (replaceFile request)

def uncommitted (disk : Disk) : List Op :=
  [.clear, .saveSettings] ++ saveOld (request.changes disk) ++ [.publish (request.changes disk)] ++
    replaceFiles request ++ [.applySettings request.restored]

def restore (disk : Disk) : List Op :=
  uncommitted request disk ++ [.commit (request.changes disk), .deleteJournal]

end EmuCore.Backup
