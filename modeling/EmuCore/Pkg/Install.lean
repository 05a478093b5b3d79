import Mathlib.Data.List.DropRight
import EmuCore.Vfs.MountTable

namespace EmuCore.Pkg

open Vfs

/- Paths of the host, as the elements of std::filesystem::path. -/

abbrev Path := List Bytes

def root : Bytes := [slash]

-- A slash at the end is an empty last element.
def elements (text : Bytes) : Path :=
  (if isAbsolute text then [root] else []) ++ names text ++
    (if names text ≠ [] ∧ text.getLast? = some slash then [[]] else [])

def lexicallyNormal (text : Bytes) : Path :=
  let last := (names text).getLast?
  root :: normalize text ++
    (if normalize text ≠ [] ∧ (text.getLast? = some slash ∨ last = some current ∨ last = some parent) then [[]] else [])

def stripped (path : Path) : Path := if path.getLast? = some [] then path.dropLast else path

def joined (dir : Path) (file : Bytes) : Path := stripped dir ++ [file]

-- What was created, for the installation path or for an entry. The path of an entry was resolved or, when that
-- failed, only put in order.
inductive Origin
  | install
  | entry (resolved : Bool)
deriving DecidableEq

structure Op where
  path : Path
  origin : Origin
deriving DecidableEq

inductive Made
  | made
  | already
  | failed

-- Every answer may depend on what was created before. A path that could be resolved has no links in it.
structure Host where
  hdd0 : Bytes
  usr : Bytes
  isLink : Path -> Bool
  isThere : List Op -> Path -> Bool
  isDir : List Op -> Path -> Bool
  isFile : List Op -> Path -> Bool
  createDir : List Op -> Path -> Made
  openFile : List Op -> Path -> Bool -> Bool
  weaklyCanonical : List Op -> Bytes -> Option Path
  absolute : isAbsolute hdd0 = true
  canonical : ∀ ops text path, weaklyCanonical ops text = some path ->
    (∀ element ∈ path, element ≠ current ∧ element ≠ parent) ∧ ∀ above, above <+: path -> isLink above = false

def parentDir (path : Path) : Path :=
  if (stripped path).length ≤ 1 then stripped path else (stripped path).dropLast

def createPath (host : Host) (origin : Origin) : Nat -> List Op -> Path -> Bool × List Op
  | 0, ops, _ => (false, ops)
  | fuel + 1, ops, path =>
    let above :=
      if (parentDir path).length < path.length && !host.isDir ops (parentDir path) then
        createPath host origin fuel ops (parentDir path)
      else (true, ops)
    if !above.1 then above
    else
      match host.createDir above.2 path with
      | .made => (true, above.2 ++ [⟨path, origin⟩])
      | .already => (true, above.2)
      | .failed => (false, above.2)

structure PkgEntry where
  name : Option Bytes
  type : Nat

structure Content where
  isValid : Bool
  contentType : Nat
  installDir : Bytes
  entries : Option (List PkgEntry)

def leavesFuel : Nat -> Bytes -> Bool
  | 0, _ => false
  | fuel + 1, rest =>
    if rest = [] then false
    else
      let component := rest.takeWhile (!isSlash ·)
      component = current || component = parent || leavesFuel fuel ((rest.dropWhile (!isSlash ·)).drop 1)

def leavesDirectory (name : Bytes) : Bool := isAbsolute name || leavesFuel name.length name

def utf8 (text : String) : Bytes := text.toUTF8.toList

def contentDir (host : Host) (contentType : Nat) : Bytes :=
  match contentType with
  | 0x09 => host.hdd0 ++ utf8 "theme/"
  | 0x0a => host.hdd0 ++ utf8 "widget/"
  | 0x0b => host.hdd0 ++ utf8 "home/" ++ host.usr ++ utf8 "/exdata/"
  | 0x0c => host.hdd0 ++ utf8 "vsh/modules/"
  | 0x0d => host.hdd0 ++ utf8 "home/" ++ host.usr ++ utf8 "/psn_avatar/"
  | 0x11 => host.hdd0 ++ utf8 "tmp/vmc/"
  | _ => host.hdd0 ++ utf8 "game/"

def setInstallPath (host : Host) (pkg : Content) : Option Bytes :=
  if !pkg.isValid then none
  else if pkg.contentType ≠ 0x09 ∧ pkg.contentType ≠ 0x0b then
    if pkg.installDir = [] ∨ leavesDirectory pkg.installDir then none
    else some (contentDir host pkg.contentType ++ escape pkg.installDir false ++ [slash])
  else some (contentDir host pkg.contentType)

structure Canonical where
  path : Path
  resolved : Bool

def canonicalize (host : Host) (ops : List Op) (text : Bytes) : Canonical :=
  match host.weaklyCanonical ops text with
  | some path => ⟨path, true⟩
  | none => ⟨lexicallyNormal text, false⟩

structure InstallEntry where
  target : Canonical
  type : Nat

structure Fill where
  ops : List Op
  canonicalDirs : List (Bytes × Canonical)
  entries : List InstallEntry
  dominating : Path -> Option Nat
  failures : Nat

def isFolder (type : Nat) : Bool := type % 256 = 4 || type % 256 = 0x12

def overwrites (type : Nat) : Bool := type.testBit 31

def locate (host : Host) (fill : Fill) (path : Bytes) (folder : Bool) : Canonical × List (Bytes × Canonical) :=
  if folder || host.isThere fill.ops (elements path) then
    let found := canonicalize host fill.ops path
    (found, if folder then fill.canonicalDirs ++ [(path, found)] else fill.canonicalDirs)
  else
    let dir := (path.rdropWhile (!isSlash ·)).dropLast
    let file := path.rtakeWhile (!isSlash ·)
    match fill.canonicalDirs.lookup dir with
    | some found => (⟨joined found.path file, found.resolved⟩, fill.canonicalDirs)
    | none =>
      let found := canonicalize host fill.ops dir
      (⟨joined found.path file, found.resolved⟩, fill.canonicalDirs ++ [(dir, found)])

def createFolder (host : Host) (fill : Fill) (target : Canonical) : Fill :=
  if host.isDir fill.ops target.path then fill
  else
    let done := createPath host (.entry target.resolved) (target.path.length + 1) fill.ops target.path
    { fill with ops := done.2, failures := if done.1 then fill.failures else fill.failures + 1 }

def addEntry (fill : Fill) (target : Canonical) (type : Nat) : Fill :=
  let kept := (fill.dominating target.path).isSome && !overwrites type
  { fill with
    entries := fill.entries ++ [⟨target, type⟩]
    dominating := if kept then fill.dominating
      else fun path => if path = target.path then some fill.entries.length else fill.dominating path }

def trimBack (name : Bytes) : Bytes := name.rdropWhile (· = 0)

def fillEntry (host : Host) (installPath : Bytes) (install : Path) (fill : Fill) (entry : PkgEntry) : Fill × Bool :=
  match entry.name with
  | none => ({ fill with failures := fill.failures + 1 }, false)
  | some nameBuf =>
    if leavesDirectory (trimBack nameBuf) then ({ fill with failures := fill.failures + 1 }, false)
    else
      let path := installPath ++ escape (trimBack nameBuf) false
      let located := locate host fill path (isFolder entry.type)
      let next := { fill with canonicalDirs := located.2 }
      if located.1.path = [] || !install.isPrefixOf located.1.path then
        ({ next with failures := fill.failures + 1 }, false)
      else if isFolder entry.type then (createFolder host next located.1, true)
      else (addEntry next located.1 entry.type, true)

def fillEntries (host : Host) (installPath : Bytes) (install : Path) : Fill -> List PkgEntry -> Fill
  | fill, [] => fill
  | fill, entry :: rest =>
    let done := fillEntry host installPath install fill entry
    if done.2 then fillEntries host installPath install done.1 rest else done.1

def createInstallPath (host : Host) (installPath : Bytes) : Bool × List Op :=
  createPath host .install ((elements installPath).length + 1) [] (elements installPath)

def installRoot (host : Host) (ops : List Op) (installPath : Bytes) : Canonical :=
  canonicalize host ops (installPath.rdropWhile isSlash)

def fillData (host : Host) (pkg : Content) (installPath : Bytes) : Fill × Bool :=
  let made := createInstallPath host installPath
  let fill : Fill := ⟨made.2, [], [], fun _ => none, 0⟩
  if !made.1 then (fill, false)
  else
    let install := installRoot host made.2 installPath
    if install.path = [] then (fill, false)
    else
      match pkg.entries with
      | none => (fill, false)
      | some entries =>
        let done := fillEntries host installPath install.path fill entries
        (done, done.failures = 0)

def extracted : List Nat := [1, 2, 9, 3, 5, 6, 0xe, 0x10, 0x11, 0x13, 0x14, 0x15, 0x16, 0x18, 0x19]

def extractEntry (host : Host) (fill : Fill) (ops : List Op) (index : Nat) : List Op :=
  match fill.entries[index]? with
  | none => ops
  | some entry =>
    let path := entry.target.path
    if fill.dominating path ≠ some index || !extracted.contains (entry.type % 256) then ops
    else
      let didOverwrite := host.isFile ops path
      if didOverwrite && !overwrites entry.type then ops
      else if host.openFile ops path didOverwrite then ops ++ [⟨path, .entry entry.target.resolved⟩]
      else ops

def install (host : Host) (pkg : Content) (installPath : Bytes) (order : List Nat) : List Op :=
  let filled := fillData host pkg installPath
  if filled.2 then order.foldl (extractEntry host filled.1) filled.1.ops else filled.1.ops

end EmuCore.Pkg
