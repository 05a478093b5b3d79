import Mathlib.Data.List.DropRight
import EmuCore.Vfs.Mount

namespace EmuCore.Vfs

/- lv2_fs_object::get_path_root_and_trail -/

structure Split where
  root : Bytes
  trail : Bytes
  level : Nat
deriving DecidableEq

inductive Stop
  | enoent
  | ensureFailed
deriving DecidableEq

def enoent : Bytes := "ENOENT".toUTF8.toList

def Split.leave (st : Split) : Except Stop Split :=
  if 1 < st.level then
    if st.trail = [] then .error .ensureFailed
    else .ok { st with
      trail := (st.trail.rdropWhile (!isSlash ·)).rdropWhile isSlash
      level := st.level - 1 }
  else if st.level = 1 then .ok { st with root := [], level := st.level - 1 }
  else .error .enoent

variable (st : Split) (component : Bytes)

def Split.enter : Split :=
  if st.level = 0 then { st with root := component, level := st.level + 1 }
  else if st.trail = [] then { st with trail := component, level := st.level + 1 }
  else { st with trail := st.trail ++ [slash] ++ component, level := st.level + 1 }

def Split.step : Except Stop Split :=
  if component = current then .ok st
  else if component = parent then st.leave
  else .ok (st.enter component)

def splitFuel : Nat -> Bytes -> Split -> Except Stop Split
  | 0, _, st => .ok st
  | fuel + 1, rest, st =>
    let start := rest.dropWhile isSlash
    if start = rest then .error .enoent
    else if start = [] then .ok st
    else
      let left := start.dropWhile (!isSlash ·)
      (st.step (start.takeWhile (!isSlash ·))).bind fun next =>
        if left = [] then .ok next else splitFuel fuel left next

def getPathRootAndTrail (filename : Bytes) : Option (Bytes × Bytes) :=
  if filename = [] then some ([], enoent)
  else
    match splitFuel filename.length filename ⟨[], [], 0⟩ with
    | .ok st => some (st.root, st.trail)
    | .error .enoent => some ([], enoent)
    | .error .ensureFailed => none

/- lv2_fs_mount_info_map::lookup -/

inductive Flag
  | readOnly
  | noUidGid
  | strictGetBlockSize
  | cache
  | reflection
deriving DecidableEq

structure MountPoint where
  root : Bytes
  fileSystem : Bytes
  device : Bytes
  flags : List Flag
deriving DecidableEq

structure MountInfo where
  mp : MountPoint
  device : Bytes
  fileSystem : Bytes
  readOnly : Bool
deriving DecidableEq

structure MountInfoMap where
  root : MountInfo
  devices : Bytes -> Option MountInfo
  notFound : MountInfo

structure Looked where
  info : MountInfo
  mountPath : Option Bytes
deriving DecidableEq

def cellFsPath : Bytes := "CELL_FS_PATH:".toUTF8.toList

-- The directory is that of the started program. A device that is a file on another device is looked up there, which
-- may not end: then the fuel is used up.
def lookup (map : MountInfoMap) (dir : Bytes) : Nat -> Bytes -> Bool -> Option Looked
  | 0, _, _ => none
  | fuel + 1, path, noCellFsPath => do
    let (devRoot, trail) ← getPathRootAndTrail path
    if devRoot = [] then
      return ⟨if trail = [] then map.root else map.notFound, none⟩
    else
      match map.devices (slash :: devRoot) with
      | none => return ⟨map.notFound, none⟩
      | some info =>
        let own : Looked := ⟨info, some (slash :: devRoot)⟩
        let ret ←
          if noCellFsPath && cellFsPath.isPrefixOf info.device then
            lookup map dir fuel (info.device.drop cellFsPath.length) noCellFsPath
          else some own
        if .reflection ∈ ret.info.mp.flags then
          let (dirRoot, _) ← getPathRootAndTrail dir
          if dirRoot ≠ devRoot then
            let seen ← lookup map dir fuel dir false
            return ⟨seen.info, ret.mountPath⟩
          else return ret
        else return ret

end EmuCore.Vfs
