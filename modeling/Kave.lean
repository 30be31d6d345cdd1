import Kave.SortedMap
import Kave.Revision
import Kave.KeyIndex
import Kave.KeyHistory
import Kave.KeyCompaction
import Kave.TreeIndex
import Kave.TreeCompaction
import Kave.Backend
import Kave.Store
import Kave.Compaction
import Kave.DeleteLoop
import Kave.History
import Kave.Transaction
import Kave.Refinement
import Kave.VisibleHistory
import Kave.Rebuild
import Kave.Layers
import Kave.Restart
import Kave.Concurrent
import Kave.ConcurrentReads
import Kave.Crash
import Kave.Heap
import Kave.Command
import Kave.Engine
import Kave.Lease
import Kave.Ot
import Kave.Fsm
import Kave.Simulation
import Kave.Undo
import Kave.Effects
import Kave.Replica
import Kave.Abort
import Kave.Journal
import Kave.Snapshot
import Kave.Current
import Kave.RemovalOrder
import Kave.Attachment
import Kave.KeySets
import Kave.LeaseRestore
import Kave.LeaseRestart
import Kave.Deadlines
import Kave.Expiry
import Kave.Agreement
import Kave.Schedules
import Kave.Observers
import Kave.Chan
import Kave.Watch
import Kave.Hub
import Kave.ChangeLog
import Kave.Delivery
import Kave.CatchUp
import Kave.Runs
import Kave.WatchSys
import Kave.Pools
import Kave.SendOrder
import Kave.Pursuit
import Kave.CompactionGap
import Kave.Gapless
import Kave.PromotionGap
import Kave.Streams
import Kave.OpenSends
import Kave.StreamOwners
import Kave.OwnReads
import Kave.PlainCommands
import Kave.EventKinds
import Kave.InFlight
import Kave.StartRevision
import Kave.Sealing
import Kave.Token
import Kave.ClusterKey
import Kave.PrimeOrder
import Kave.Transfer
import Kave.LiveCompaction
import Kave.Archives
import Kave.CrashPoints
import Kave.WriteCollector
import Kave.BatchCommit
import Kave.HeapOrder
import Kave.Draining
import Kave.LeasePages
import Kave.FailedLeases
import Kave.KeyCount
import Kave.BatchLoop
import Kave.LexPrefix
import Kave.Prefixes
import Kave.Promotions
import Kave.Codec
import Kave.BatchWrites
import Kave.Scans
import Kave.GobSnapshot
import Kave.WriteTx
import Kave.IndexShape
import Kave.Utf8
import Kave.Json
import Kave.WatchMessages
import Kave.Comparisons
import Kave.Scheduler
import Kave.Checkpoints
