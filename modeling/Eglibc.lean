import Eglibc.Memmem
import Eglibc.TsearchStack
import Eglibc.Qsort
import Eglibc.HsearchPrime
import Eglibc.NsNamePack
import Eglibc.XdrRoundTrip
import Eglibc.XdrRecWriter
import Eglibc.GetoptRun
import Eglibc.Utf8Cuts
import Eglibc.Utf8ToUtf16
import Eglibc.Utf7RoundTrip
import Eglibc.Digests
import Eglibc.RandomSwitch
import Eglibc.Barrier
import Eglibc.RwlockRun
import Eglibc.Condvar
import Eglibc.TsdExit
import Eglibc.EnvzMap
import Eglibc.ArgzInsert
import Eglibc.ArgzReplace
import Eglibc.AddrSort
import Eglibc.ObstackRun
import Eglibc.XdrCallmsg
import Eglibc.Timegm
import Eglibc.EnvironMap
import Eglibc.ThreeLevelFile
import Eglibc.RealpathCorrect
import Eglibc.Tzset
import Eglibc.Tzfile
import Eglibc.StrtolExact
import Eglibc.ItoaText
import Eglibc.StrptimeRange
import Eglibc.TzfileSafe
import Eglibc.LibCmp
import Eglibc.NsNameSkip
import Eglibc.NsNameTable
import Eglibc.Strcasestr
import Eglibc.Base64
import Eglibc.InetNtop
import Eglibc.StrftimeWeek
import Eglibc.Fmemopen
