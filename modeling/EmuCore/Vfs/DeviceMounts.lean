import EmuCore.Vfs.PathAgreement

namespace EmuCore.Vfs

def text (s : String) : Bytes := s.toUTF8.toList

def mpDevUsb : MountPoint :=
  ⟨text "/dev_usb", text "CELL_FS_FAT", text "CELL_FS_IOS:USB_MASS_STORAGE", [.noUidGid]⟩

def mpDevDvd : MountPoint :=
  ⟨text "/dev_ps2disc", text "CELL_FS_ISO9660", text "CELL_FS_IOS:PATA1_BDVD_DRIVE", [.readOnly, .noUidGid]⟩

def mpDevBdvd : MountPoint :=
  ⟨text "/dev_bdvd", text "CELL_FS_ISO9660", text "CELL_FS_IOS:PATA0_BDVD_DRIVE", [.readOnly, .noUidGid]⟩

def mpDevHdd1 : MountPoint :=
  ⟨text "/dev_hdd1", text "CELL_FS_FAT", text "CELL_FS_UTILITY:HDD1", [.noUidGid, .cache]⟩

def mpDevHdd0 : MountPoint := ⟨text "/dev_hdd0", text "CELL_FS_UFS", text "CELL_FS_UTILITY:HDD0", []⟩

def mpDevFlash3 : MountPoint :=
  ⟨text "/dev_flash3", text "CELL_FS_FAT", text "CELL_FS_IOS:BUILTIN_FLSH3", [.noUidGid]⟩

def mpDevFlash2 : MountPoint :=
  ⟨text "/dev_flash2", text "CELL_FS_FAT", text "CELL_FS_IOS:BUILTIN_FLSH2", [.noUidGid]⟩

def mpDevFlash : MountPoint :=
  ⟨text "/dev_flash", text "CELL_FS_FAT", text "CELL_FS_IOS:BUILTIN_FLSH1", [.noUidGid]⟩

def mpHostRoot : MountPoint :=
  ⟨text "/host_root", text "CELL_FS_DUMMYFS", text "CELL_FS_DUMMY:/", [.strictGetBlockSize, .noUidGid]⟩

def mpAppHome : MountPoint :=
  ⟨text "/app_home", text "CELL_FS_DUMMYFS", text "CELL_FS_DUMMY:", [.strictGetBlockSize, .noUidGid, .reflection]⟩

def mpDevRoot : MountPoint :=
  ⟨text "/", text "CELL_FS_ADMINFS", text "CELL_FS_ADMINFS:", [.readOnly, .strictGetBlockSize, .noUidGid]⟩

def mpNoDevice : MountPoint := ⟨[], [], [], []⟩

def mountPoints : List MountPoint :=
  [mpDevRoot, mpAppHome, mpHostRoot, mpDevFlash, mpDevFlash2, mpDevFlash3, mpDevHdd0, mpDevHdd1, mpDevBdvd,
    mpDevDvd, mpDevUsb]

/- lv2_fs_object::get_mp -/

-- The host paths of the configuration, and those of the USB devices by name.
structure Config where
  hdd0 : Bytes
  hdd1 : Bytes
  bdvd : Bytes
  appHome : Bytes
  flash : Bytes
  flash2 : Bytes
  flash3 : Bytes
  usb : Bytes -> Bytes
  hostRoot : Bool

def aliases (mp : MountPoint) : List Bytes :=
  if mp = mpDevHdd0 then [text "CELL_FS_IOS:PATA0_HDD_DRIVE"]
  else if mp = mpDevHdd1 then [text "CELL_FS_IOS:PATA1_HDD_DRIVE"]
  else if mp = mpDevFlash then [text "CELL_FS_IOS:BUILTIN_FLASH", text "CELL_FS_IOS:BUILTIN_FLSH1"]
  else if mp = mpDevFlash2 then [text "CELL_FS_IOS:BUILTIN_FLSH2"]
  else if mp = mpDevFlash3 then [text "CELL_FS_IOS:BUILTIN_FLSH3"]
  else []

def checkMp (isPath : Bool) (mpName : Bytes) (mp : MountPoint) : Bool :=
  let own := if isPath then mp.root else mp.device
  if mp = mpDevUsb then own.isPrefixOf mpName
  else own = mpName || (!isPath && (aliases mp).contains mpName)

def Config.vfsPath (config : Config) (mp : MountPoint) (mpName : Bytes) : Bytes :=
  if mp = mpDevHdd0 then config.hdd0
  else if mp = mpDevHdd1 then config.hdd1
  else if mp = mpDevUsb then config.usb mpName
  else if mp = mpDevBdvd then config.bdvd
  else if mp = mpDevDvd then config.bdvd
  else if mp = mpAppHome then config.appHome
  else if mp = mpHostRoot && config.hostRoot then [slash]
  else if mp = mpDevFlash then config.flash
  else if mp = mpDevFlash2 then config.flash2
  else if mp = mpDevFlash3 then config.flash3
  else []

-- Nothing comes back when a check fails.
def getMp (config : Config) (host : Host) (root : Directory) (filename : Bytes) : Option (MountPoint × Bytes) :=
  let isCellFsPath := cellFsPath.isPrefixOf filename
  let filename := if isCellFsPath then filename.drop cellFsPath.length else filename
  let isPath := isAbsolute filename
  let name := if isPath then (getPathRootAndTrail filename).map fun split => slash :: split.1 else some filename
  name.map fun mpName =>
    let result := (mountPoints.find? (checkMp isPath mpName)).getD mpNoDevice
    let mpName := if result = mpDevUsb && !isPath then result.root ++ mpName.drop result.device.length else mpName
    (result, if isCellFsPath then (get host root filename).path else config.vfsPath result mpName)

inductive Code
  | ok
  | enoent
  | eperm
  | enxio
  | ebusy
  | enotsup
  | eexist
  | eio
  | einval
  | ensureFailed
deriving DecidableEq

structure Env where
  host : Host
  config : Config
  hasRootPerm : Bool
  appname : Bytes
  dir : Bytes

structure Guest where
  vfs : Directory
  map : List (Bytes × MountInfo)
  isFile : Bytes -> Bool

def notFound : MountInfo := ⟨mpNoDevice, [], [], false⟩

def Guest.infos (s : Guest) : MountInfoMap where
  root := (s.map.lookup [slash]).getD notFound
  devices := fun path => s.map.lookup path
  notFound := notFound

def add (path : Bytes) (info : MountInfo) (map : List (Bytes × MountInfo)) : List (Bytes × MountInfo) :=
  if (map.lookup path).isSome then map else (path, info) :: map

def remove (path : Bytes) (map : List (Bytes × MountInfo)) : List (Bytes × MountInfo) :=
  map.filter fun entry => entry.1 ≠ path

def isDeviceMounted (deviceName : Bytes) (map : List (Bytes × MountInfo)) : Bool :=
  map.any fun entry => entry.2.device = deviceName

-- The last fields are what other threads and the host answer.
structure MountCall where
  deviceName : Bytes
  filesystem : Bytes
  path : Bytes
  prot : Bool
  tryLock : Bool
  dirReady : Bool
  fileOpened : Bool
  fileRemoved : Bool

structure UnmountCall where
  path : Bytes
  force : Bool
  tryLock : Bool
  fileRemoved : Bool

def simplefs : Bytes := text "CELL_FS_SIMPLEFS"

-- The application name goes up to its last dot.
def cachePath (appname vfsPath : Bytes) : Bytes :=
  vfsPath ++ text "/caches/" ++ if dot ∈ appname then (appname.rdropWhile (· ≠ dot)).dropLast else appname

variable (env : Env)

def mountDir (mp : MountPoint) (vfsPath : Bytes) : Bytes :=
  withSlash (if mp = mpDevHdd1 then cachePath env.appname vfsPath else vfsPath)

def mountTarget (c : MountCall) (mp : MountPoint) (vfsPath : Bytes) : Bytes :=
  mountDir env mp vfsPath ++ if c.filesystem = simplefs then text "simplefs.tmp" else []

def mountDevice (c : MountCall) (rootName : Bytes) (mp : MountPoint) (vfsPath : Bytes) (s : Guest) :
    Code × Guest :=
  let target := mountTarget env c mp vfsPath
  if !c.dirReady then (.eio, s)
  else if c.filesystem = simplefs && !c.fileOpened then (.eio, s)
  else
    let isFile := if c.filesystem = simplefs then Function.update s.isFile target true else s.isFile
    let mounted := mount env.host s.vfs (slash :: rootName) target (c.filesystem ≠ simplefs)
    if !mounted.1 then
      let isFile := if c.filesystem = simplefs && c.fileRemoved then Function.update isFile target false else isFile
      (.eio, ⟨mounted.2, s.map, isFile⟩)
    else (.ok, ⟨mounted.2, add (slash :: rootName) ⟨mp, c.deviceName, c.filesystem, c.prot⟩ s.map, isFile⟩)

def sysFsMount (c : MountCall) (s : Guest) : Code × Guest :=
  if !isAbsolute c.path then (.enoent, s)
  else
    match getPathRootAndTrail c.path, getMp env.config env.host s.vfs c.deviceName with
    | some (rootName, _), some (mp, vfsPath) =>
      if !env.hasRootPerm && mp ≠ mpDevUsb then (.eperm, s)
      else if mp = mpNoDevice then (.enxio, s)
      else if isDeviceMounted c.deviceName s.map || !c.tryLock then (.ebusy, s)
      else if vfsPath = [] then (.enotsup, s)
      else if rootName = [] || (get env.host s.vfs c.path).path ≠ [] then (.eexist, s)
      else mountDevice env c rootName mp vfsPath s
    | _, _ => (.ensureFailed, s)

-- lv2_fs_mount_info_map::vfs_unmount: the same spelling goes to the file check, the tree and the map.
def vfsUnmount (host : Host) (c : UnmountCall) (s : Guest) : Bool × Guest :=
  let localPath := (get host s.vfs c.path).path
  if localPath = [] then (false, s)
  else
    let isFile := if s.isFile localPath && c.fileRemoved then Function.update s.isFile localPath false else s.isFile
    let unmounted := unmount s.vfs c.path
    (unmounted.1, ⟨unmounted.2, if unmounted.1 then remove c.path s.map else s.map, isFile⟩)

def lookupFuel : Nat := 2

def sysFsUnmount (env : Env) (c : UnmountCall) (s : Guest) : Code × Guest :=
  if !isAbsolute c.path then (.enoent, s)
  else
    match lookup s.infos env.dir lookupFuel c.path false with
    | none => (.ensureFailed, s)
    | some looked =>
      let mp := looked.info.mp
      if !env.hasRootPerm && mp ≠ mpDevUsb then (.eperm, s)
      else if mp = mpNoDevice then (.einval, s)
      else if mp = mpDevRoot || (!c.tryLock && !c.force) then (.ebusy, s)
      else
        let unmounted := vfsUnmount env.host c s
        (if unmounted.1 then .ok else .eio, unmounted.2)

inductive DeviceCall
  | mount (c : MountCall)
  | unmount (c : UnmountCall)

def DeviceCall.run (env : Env) (s : Guest) : DeviceCall -> Guest
  | .mount c => (sysFsMount env c s).2
  | .unmount c => (sysFsUnmount env c s).2

def runDevices (env : Env) (s : Guest) (calls : List DeviceCall) : Guest := calls.foldl (DeviceCall.run env) s

end EmuCore.Vfs
