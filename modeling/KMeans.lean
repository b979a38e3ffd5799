import KMeans.General.Loops
import KMeans.General.LeastSquares
import KMeans.General.Lloyd
import KMeans.General.Arrays
import KMeans.General.Transition
import KMeans.UserData.Point
import KMeans.MultiThread.Helpers
import KMeans.MultiThread.KmeansPP
import KMeans.LoopBody
import KMeans.SingleThread.KmeansSingleThread
import KMeans.MultiThread.KmeansMultiThread
import KMeans.Convergence
import KMeans.FixedPoint
import KMeans.Agreement
import KMeans.Threadsafe.Locks
import KMeans.Threadsafe.LockInvariant
import KMeans.Threadsafe.LockGuarantees
import KMeans.Threadsafe.BlockingList
import KMeans.Threadsafe.Threadpool
import KMeans.Threadsafe.TaskLedger
import KMeans.Threadsafe.PoolGuarantees
import KMeans.Threadsafe.PoolShutdown
import KMeans.Threadsafe.Resubmission
import KMeans.MultiThread.Schedule
import KMeans.MultiThread.Barrier
import KMeans.MultiThread.MainThread
import KMeans.MultiThread.OneWorker
import KMeans.MultiThread.ScheduleIndependence
import KMeans.General.Memory
import KMeans.Threadsafe.ListCells
import KMeans.MultiThread.TaskLifetime
import KMeans.Threadsafe.LockProgress
import KMeans.Threadsafe.MapAccess
import KMeans.StablePartition
import KMeans.General.LloydSymmetry
import KMeans.Scaling
import KMeans.Permutation
import KMeans.MultiThread.TaskRanges
import KMeans.Threadsafe.ListCounter
import KMeans.Translation
import KMeans.General.Roulette
import KMeans.MultiThread.SeedingSteps
import KMeans.MultiThread.Seeding
import KMeans.ObjectReuse
import KMeans.Threadsafe.LockExceptions
import KMeans.Threadsafe.FailedLock
import KMeans.General.Monitor
import KMeans.Threadsafe.ListActions
import KMeans.Threadsafe.ListCallers
import KMeans.Tests.ListTest
import KMeans.General.Sections
import KMeans.Tests.Printing
import KMeans.Tests.PhraseCounts
import KMeans.Threadsafe.LockOrder
import KMeans.General.LostCenters
import KMeans.Rosetta.KmeansRosettaCode
import KMeans.Rosetta.Passes
import KMeans.Rosetta.Seeds
import KMeans.Rosetta.Results
import KMeans.MultiThread.RunReturns
import KMeans.MultiThread.HangingRun
import KMeans.MultiThread.AtomicFloat
import KMeans.Tests.ThreadpoolTest
import KMeans.Tests.ThreadpoolRuns
import KMeans.Tests.ThreadpoolEnds
import KMeans.Threadsafe.LostWakeups
import KMeans.Threadsafe.TornFinds
