import KestrelOS.Calendar
import KestrelOS.Cookies.Suffixes
import KestrelOS.Http.CacheCounters
import KestrelOS.Http.Origin
import KestrelOS.Http.Received
import KestrelOS.Ipc.Pipe
import KestrelOS.Kfs.Contents
import KestrelOS.Kfs.Namespace
import KestrelOS.Kfs.OpenChecks
import KestrelOS.Kfs.PowerFailure
import KestrelOS.Kfs.Superblock
import KestrelOS.Kpkg.Package
import KestrelOS.Libz.Checksums
import KestrelOS.Mem.Pmm
import KestrelOS.Net.Checksum
import KestrelOS.Proc.SignalFrames
import KestrelOS.Proc.StopSignals
import KestrelOS.Proc.WaitAny
import KestrelOS.Supervisor.Shutdown
import KestrelOS.Tls.Chain
import KestrelOS.Tls.X25519
