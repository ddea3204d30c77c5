import Snort.SearchEngines.Acsmx3
import Snort.SearchEngines.Acsmx2.SearchAll
import Snort.SearchEngines.Acsmx2.Stateful
import Snort.SearchEngines.Bnfa.Opt
import Snort.Decompress.PdfTokens
import Snort.Stream.Tcp.AckTracking
import Snort.Stream.Tcp.FirstWins
import Snort.Stream.Tcp.LastWins
import Snort.Stream.Tcp.FlushTranslation
import Snort.Stream.PafPosition
import Snort.Flow.FlowCacheRuns
import Snort.Sfip.IpListText
import Snort.Stream.Ip.Datagram
import Snort.HttpInspect.PathCanonical
import Snort.Hash.LruRefinement
import Snort.Hash.XHashRuns
import Snort.Flow.HaRoundTrip
import Snort.Filters.ThresholdWindows
import Snort.Filters.RateFilterRuns
import Snort.HttpInspect.HeaderBlock
import Snort.Helpers.Ring
import Snort.FileApi.FileSegments
import Snort.Utils.Unfold
import Snort.Utils.Utf
