import EmuCore.Lib.Trie
import EmuCore.Vfs.Escape

namespace EmuCore.Vfs

-- A directory holds its host path, empty when it is not mounted, and its virtual subdirectories.
abbrev Directory := Trie Bytes Bytes

structure Host where
  resolvePath : Bytes -> Bytes
  configDir : Bytes

def isSlash (b : UInt8) : Bool := b = slash

-- One name after another is taken off the front, each with the slashes before it. A name comes with what it
-- leaves of the path.
def fragmentsFuel : Nat -> Bytes -> List (Bytes × Bytes)
  | 0, _ => []
  | fuel + 1, vpath =>
    let start := vpath.dropWhile isSlash
    if start = [] then []
    else
      let left := start.dropWhile (!isSlash ·)
      (start.takeWhile (!isSlash ·), left) :: fragmentsFuel fuel left

variable (vpath : Bytes)

def fragments : List (Bytes × Bytes) := fragmentsFuel vpath.length vpath

def names : List Bytes := (fragments vpath).map (·.1)

def remains : Bytes := ((fragments vpath).getLast?.map (·.2)).getD vpath

def isAbsolute : Bool := vpath.head? = some slash

def current : Bytes := [dot]

def parent : Bytes := [dot, dot]

structure Mounting where
  root : Directory
  place : List Bytes

def Mounting.step (st : Mounting) (name : Bytes) : Mounting :=
  if name = current then st
  else if name = parent then { st with place := st.place.dropLast }
  else ⟨st.root.modify (Trie.findOrAdd name []) st.place, st.place ++ [name]⟩

-- Special: the whole host.
def hostRoot : Bytes := [slash]

def hostPath (host : Host) (path : Bytes) (isDir : Bool) : Bytes :=
  let resolved := if host.resolvePath path = [] then path else host.resolvePath path
  let ended := if isDir && resolved.getLast? ≠ some slash then resolved ++ [slash] else resolved
  if path = hostRoot then hostRoot else ended

def mount (host : Host) (root : Directory) (vpath path : Bytes) (isDir : Bool) : Bool × Directory :=
  if !isAbsolute vpath then (false, root)
  else
    let st := (names vpath).foldl Mounting.step ⟨root, []⟩
    (true, st.root.modify (Trie.setValue (hostPath host path isDir)) st.place)

def unmount (root : Directory) (vpath : Bytes) : Bool × Directory :=
  if names vpath = [] then (false, root) else (true, root.prune (names vpath))

structure Found where
  path : Bytes
  outPath : Option Bytes
  outDir : List Bytes

def merge (fragments : List Bytes) : Bytes := [slash].intercalate fragments

def deleted (host : Host) : Bytes := host.configDir ++ "delete_this_dir.../delete_this...".toUTF8.toList

structure Walking where
  list : List (Option Directory)
  result : List Bytes

def Walking.enter (host : Host) (st : Walking) (name vpath : Bytes) : Except Found Walking :=
  match (st.list.headD none).bind fun last => Trie.lookup name last.children with
  | none => .ok ⟨none :: st.list, name :: st.result⟩
  | some dir =>
    if dir.value = hostRoot then
      if vpath.length ≤ 1 then .error ⟨deleted host, none, []⟩
      else .error ⟨vpath.drop 1, some ([slash] ++ merge (name :: st.result).reverse ++ vpath), []⟩
    else .ok ⟨some dir :: st.list, name :: st.result⟩

def Walking.step (host : Host) (st : Walking) (fragment : Bytes × Bytes) : Except Found Walking :=
  if fragment.1 = current then .ok st
  else if fragment.1 = parent then
    if st.list.length = 1 then .ok st else .ok ⟨st.list.tail, st.result.tail⟩
  else st.enter host fragment.1 fragment.2

def lastMounted (alone : Bool) : List (Option Directory) -> Option (Directory × Nat)
  | [] => none
  | none :: below => lastMounted alone below
  | some dir :: below => if dir.value ≠ [] || alone then some (dir, below.length) else lastMounted alone below

def Walking.finish (st : Walking) (vpath : Bytes) : Found :=
  let found := lastMounted (st.list.length = 1) st.list
  let kept := st.result.reverse.drop (found.elim 0 (·.2))
  let result := if vpath ≠ [] then kept ++ [[]] else kept
  let outDir := found.elim [] fun last =>
    (last.1.children.filter fun entry => entry.2.value ≠ []).map (·.1)
  let base := found.elim [] (·.1.value)
  if base = [] then ⟨[], none, outDir⟩
  else ⟨base ++ merge (result.map (escape · false)), some ([slash] ++ merge st.result.reverse), outDir⟩

def get (host : Host) (root : Directory) (vpath : Bytes) : Found :=
  if !isAbsolute vpath then ⟨deleted host, none, []⟩
  else
    match (fragments vpath).foldlM (Walking.step host) ⟨[some root], []⟩ with
    | .error found => found
    | .ok st => st.finish (remains vpath)

inductive Call
  | mount (vpath path : Bytes) (isDir : Bool)
  | unmount (vpath : Bytes)

def Call.run (host : Host) (root : Directory) : Call -> Directory
  | .mount vpath path isDir => (Vfs.mount host root vpath path isDir).2
  | .unmount vpath => (Vfs.unmount root vpath).2

def run (host : Host) (calls : List Call) : Directory := calls.foldl (Call.run host) (.node [] [])

-- The application leaves this callback at its default.
def resolvePathMayNotExist (path : Bytes) : Bytes := path

def withSlash (dir : Bytes) : Bytes := if dir.getLast? = some slash then dir else dir ++ [slash]

def isPathInsideDir (path dir : Bytes) : Bool :=
  let dirPath := resolvePathMayNotExist dir
  let resolvedPath := resolvePathMayNotExist path
  !dirPath.isEmpty && !resolvedPath.isEmpty && (withSlash dirPath).isPrefixOf (resolvedPath ++ [slash])

lemma withSlash_prefix (dir rest : Bytes) : withSlash dir <+: dir ++ slash :: rest := by
  unfold withSlash
  split
  next => exact ⟨slash :: rest, rfl⟩
  next => exact ⟨rest, by rw [List.append_assoc, List.singleton_append]⟩

lemma isPathInsideDir_append {dir : Bytes} (nonempty : dir ≠ []) (rest : Bytes) :
    isPathInsideDir (dir ++ slash :: rest) dir = true := by
  have inside := withSlash_prefix dir (rest ++ [slash])
  simpa [isPathInsideDir, resolvePathMayNotExist, nonempty] using inside

end EmuCore.Vfs
