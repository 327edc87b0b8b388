import Myos.Blk.CacheReach
import Myos.Blk.RegistryConfined
import Myos.Fs.Beneath
import Myos.Fs.Binds
import Myos.Fs.LocksSound
import Myos.Fs.PageCacheReach
import Myos.Ipc.PipesSound
import Myos.Ipc.Pty
import Myos.Ipc.Tty
import Myos.Mm.FramesSound
import Myos.Modules.Ext2Cache
import Myos.Modules.FatTime
import Myos.Modules.HidReport
import Myos.Modules.LinuxCallsRun
import Myos.Modules.LinuxFilesRun
import Myos.Modules.Netfs.LastClose
import Myos.Modules.Netfs.NetCreditReach
import Myos.Modules.Netfs.NetIdentityReach
import Myos.Modules.Netfs.UnixAccept
import Myos.Modules.Netfs.UnixPairReach
import Myos.Modules.Netfs.UnixRightsReach
import Myos.Modules.SleepLock
import Myos.Modules.Ps2
import Myos.Modules.Sound
import Myos.Sec.ReloadKept
import Myos.Sec.RenameAuthority
import Myos.Task.AddrWait
import Myos.Task.FdReach
import Myos.Task.SigKillEnds
import Myos.Task.SleepWake
import Myos.User.Ccmp
import Myos.User.ListDir
import Myos.User.MappedProgramExec
import Myos.User.CowInvariant
import Myos.User.MmapTableRun
import Myos.User.NativeCalls
import Myos.User.NsNarrow
import Myos.Evfd.TimerRun
import Myos.Task.RunQueue
import Myos.Ipc.Input
