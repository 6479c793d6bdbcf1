import Baudtime.Backend.MergeStrings
import Baudtime.Backend.MergeSeriesSet
import Baudtime.Backend.MergeIterator
import Baudtime.Backend.MergeQuerier
import Baudtime.Meta.Cluster
import Baudtime.Meta.Failover
import Baudtime.Meta.Gateways
import Baudtime.Meta.FailoverProgress
import Baudtime.Meta.Latches
import Baudtime.Meta.Targets
import Baudtime.Meta.RouteKey
import Baudtime.Meta.RouteCache
import Baudtime.Meta.RouteLocks
import Baudtime.Meta.RouteProgress
import Baudtime.Meta.Refresh
import Baudtime.Meta.RefreshOrder
import Baudtime.Pb.Wire
import Baudtime.Pb.Messages
import Baudtime.Pb.RoundTrip
import Baudtime.Pb.Merge
import Baudtime.Pb.Skip
import Baudtime.Pb.Admin
import Baudtime.Pb.Sizes
import Baudtime.Pb.Scalars
import Baudtime.Tcp.LoopWrite
import Baudtime.Tcp.ReadWriteLoop
import Baudtime.Console.Regexp
import Baudtime.Console.Line
