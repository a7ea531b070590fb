import Tapa.ResetIsolation
import Tapa.Recursion
import Tapa.Payload
import Tapa.MultiLevel
import Tapa.RoutableCuts
import Tapa.LeafNames
import Tapa.SharedQueue
import Tapa.Forwarder
import Tapa.KernelService
import Tapa.FixedPoint
import Tapa.AieNames
import Tapa.HierRuns
import Tapa.Wiring
import Tapa.PathEnumeration
import Tapa.HeadReserve
import Tapa.RouteSymmetry
import Tapa.PlainFifos
import Tapa.WriteResponses
import Tapa.EotCheck
import Tapa.MergedGraph
import Tapa.IntSlice
import Tapa.AieCycles
import Tapa.Crossbar
import Tapa.FloorConservation
import Tapa.IntDivide
import Tapa.ThreadPool
import Tapa.IncludeTree
import Tapa.HybridRun
import Tapa.CapSweep
import Tapa.PortConstants
import Tapa.BulkTransfer
import Tapa.MacroSplice
