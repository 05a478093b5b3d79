import EmuCore.Backup.Atomicity
import EmuCore.Cell.LFQueueCounters
import EmuCore.Cell.SyncQueueFifo
import EmuCore.Dmux.OutputQueuePlace
import EmuCore.Edat.Decompress
import EmuCore.Edat.ReadData
import EmuCore.Idm.IdFreshness
import EmuCore.Install.NaturalCompare
import EmuCore.Iso.DirectoryWalk
import EmuCore.Iso.ReadImage
import EmuCore.Lv2.EventFlagAtomic
import EmuCore.Lv2.EventQueueDelivery
import EmuCore.Lv2.MutexSafety
import EmuCore.Lv2.PpuJoinOnce
import EmuCore.Lv2.RwlockSafety
import EmuCore.Lv2.SemaphoreSafety
import EmuCore.Lv2.Timer
import EmuCore.Memory.Granules
import EmuCore.Memory.ProtectExact
import EmuCore.Memory.ReadString
import EmuCore.Memory.VmAllocations
import EmuCore.Memory.WriterLock
import EmuCore.Net.P2psQueue
import EmuCore.Net.P2psWire
import EmuCore.Np.Allocator
import EmuCore.Np.RoomCache
import EmuCore.Pkg.EntryReaderExact
import EmuCore.Pkg.InstallContained
import EmuCore.Pkg.ParallelExtract
import EmuCore.Profile.PlayTimeConservation
import EmuCore.Psf.RoundTrip
import EmuCore.Rsx.DataHeapSafety
import EmuCore.Rsx.MemoryManagerMirror
import EmuCore.Rsx.NeonScalar
import EmuCore.Rsx.PrimitiveRestart
import EmuCore.Rsx.RangedMapQuery
import EmuCore.Rsx.RegisterExposure
import EmuCore.Rsx.Swizzle
import EmuCore.Rsx.TilingImage
import EmuCore.Savedata.Survive
import EmuCore.Tar.Contained
import EmuCore.Util.AddressRangeContains
import EmuCore.Util.Bunch
import EmuCore.Util.LockFreeQueueOrder
import EmuCore.Util.Vle
import EmuCore.Vfs.DeviceMountsConsistent
import EmuCore.Vfs.LookupEnds
