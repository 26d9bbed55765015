import Hosk.OpBufferDrain
import Hosk.OpBufferInterleaving
import Hosk.AllocatorCore
import Hosk.AllocatorIsolation
import Hosk.Chain
import Hosk.DataLayerCore
import Hosk.DataLayerList
import Hosk.DataLayerThreads
import Hosk.DataLayerSteps
import Hosk.DataLayerLinearizable
import Hosk.EnclaveCore
import Hosk.IndexSpec
import Hosk.IntermedLayer
import Hosk.IndexGrid
import Hosk.IndexRepr
import Hosk.IntermedOps
import Hosk.IndexRaise
import Hosk.IndexRows
import Hosk.IndexPass
import Hosk.IndexLower
import Hosk.IndexRefinement
import Hosk.IndexRuns
import Hosk.NumaPlatform
import Hosk.StandingTowers
import Hosk.DeletedNodes
import Hosk.IndexInvariant
import Hosk.JobReplay
import Hosk.IndexBalance
import Hosk.IndexTowers
import Hosk.EntrySources
import Hosk.IndexSearch
import Hosk.SearchInterference
import Hosk.DataLayerAlone
import Hosk.OpBufferContents
import Hosk.SkipListCore
import Hosk.SkipListAnswers
import Hosk.DataLayerAccounting
import Hosk.IndexLayer
import Hosk.Ends
import Hosk.BlockReuse
import Hosk.NumaRuns
import Hosk.LoweredLevels
import Hosk.LoweringDecision
import Hosk.CounterLimit
import Hosk.TraversalAgreement
import Hosk.ApplicationLoop
import Hosk.EverySecond
import Hosk.RebuiltIndex
import Hosk.RebuiltHeight
import Hosk.Spacing
import Hosk.LinkedRows
import Hosk.SpreadIndex
import Hosk.SpreadPass
import Hosk.InsertedRuns
import Hosk.StartUp
import Hosk.StartUpQueue
import Hosk.ShortenedIndex
import Hosk.OverflowingPasses
import Hosk.StartUpWait
import Hosk.RowWindows
import Hosk.EvenPasses
import Hosk.RaisedApart
import Hosk.TornTowers
import Hosk.TornPass
import Hosk.HeightBound
import Hosk.CacheLines
import Hosk.AllocatorSizing
import Hosk.HardwareLayout
import Hosk.RandRange
import Hosk.EffectiveUpdates
import Hosk.Barrier
import Hosk.IndexSpine
import Hosk.SpinePass
import Hosk.RaisedMarks
import Hosk.UndisturbedRun
import Hosk.RemovableList
import Hosk.RemovingTraversal
import Hosk.RemovingFinish
import Hosk.RemovingOperation
import Hosk.HelperFrame
import Hosk.SequentialCalls
import Hosk.DeletedStayLinked
import Hosk.OwnAddressValues
import Hosk.SystemCore
import Hosk.SystemParts
import Hosk.SystemLinearizable
import Hosk.SystemAllocators
import Hosk.SystemHelpers
import Hosk.Progress
import Hosk.DataLayerProgress
import Hosk.DataLayerLockFree
import Hosk.DataLayerWaitFree
import Hosk.SystemSize
import Hosk.Population
import Hosk.SystemProgress
import Hosk.BarrierProgress
import Hosk.SearchCost
import Hosk.RebuiltSearch
import Hosk.MainCore
import Hosk.MainPlan
import Hosk.MainThreads
import Hosk.AllocatorTeardown
import Hosk.WholeCalls
import Hosk.Measurement
