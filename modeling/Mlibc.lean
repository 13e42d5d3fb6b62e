import Mlibc.FutexLockSafety
import Mlibc.ThreadCondSafety
import Mlibc.BarrierSafety
import Mlibc.RwLockSafety
import Mlibc.SearchSafety
import Mlibc.AbstractFileDelivery
import Mlibc.AbstractFileRuns
import Mlibc.LoaderInitSafety
import Mlibc.LoaderTlsRuns
import Mlibc.ThreadKeysSafety
import Mlibc.EnvironmentSafety
import Mlibc.SymbolSafety
import Mlibc.GetoptSafety
import Mlibc.QuickSortSafety
import Mlibc.HashSearchSafety
import Mlibc.ThreadOnce
import Mlibc.StringToIntegerSubject
import Mlibc.StringToFloatSubject
import Mlibc.WideEncodingSafety
import Mlibc.WideDecodingSafety
import Mlibc.AbstractFileUnget
import Mlibc.RepositoryRuns
import Mlibc.RealpathRuns
import Mlibc.ThreadExitSafety
import Mlibc.DnsResponses
import Mlibc.SetLocaleFrame
import Mlibc.InetRoundTrip
import Mlibc.TimeMktime
import Mlibc.ScanfStrings
import Mlibc.StrftimeBounds
import Mlibc.SemaphoreRuns
import Mlibc.GroupBuffer
import Mlibc.PmosReplies
import Mlibc.PmosRequests
import Mlibc.AioRequests
import Mlibc.ExitHandlers
import Mlibc.TimeRules
import Mlibc.TimeZoneFile
import Mlibc.MemoryFiles
import Mlibc.Scanset
import Mlibc.AbstractFilePosition
import Mlibc.LoadLocale
import Mlibc.CloseOnExec
import Mlibc.Relr
import Mlibc.MultibyteCalls
import Mlibc.AbstractFileSafety
