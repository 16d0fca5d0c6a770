import CPractice.Deque.Failure
import CPractice.Deque.Relayout
import CPractice.MemPool.Links
import CPractice.MemPool.Serving
import CPractice.MemPool.Accounting
import CPractice.Lib.Linked
import CPractice.SkipList.Upsert
import CPractice.SkipList.Bounds
import CPractice.Ring.MultiProducer
import CPractice.Ring.EmptyPops
import CPractice.Ring.SizeField
import CPractice.Ring.Batches
import CPractice.Hashtable.Atomicity
import CPractice.Queue.Fifo
import CPractice.CircularList.Push
import CPractice.Aof.Split
import CPractice.Fsm.Termination
import CPractice.BlockQueue.Bounded
import CPractice.BlockQueue.Unbounded
import CPractice.MpmcQueue.Count
import CPractice.MpmcQueue.OneNode
import CPractice.MpmcQueue.Order
import CPractice.MpmcQueue.Outcomes
import CPractice.MulHash.Isolation
import CPractice.MulHash.Slots
import CPractice.Scheduler.Runs
import CPractice.Migrate.Model
import CPractice.Migrate.Database
import CPractice.RbMap.Invariant
import CPractice.RbMap.EraseFrame
import CPractice.Lib.Cells
import CPractice.Str.Strstr
import CPractice.Str.Trim
import CPractice.Str.Splice
import CPractice.Str.ReplaceStr
import CPractice.Vector.Runs
import CPractice.LiskString.FailedGrowth
import CPractice.LiskString.Runs
import CPractice.Conf.Loads
import CPractice.Conf.Keys
import CPractice.Conf.Progress
import CPractice.Bloom.Usable
import CPractice.Timer.StaleDelete
import CPractice.Timer.Dial
import CPractice.Hash.Crc
import CPractice.Math.PrimeSearch
import CPractice.Math.QuickPower
import CPractice.Math.ByteOrder
import CPractice.Dict.Iterators
import CPractice.Dict.Map
import CPractice.Dict.Refinement
import CPractice.Dict.Scan
import CPractice.Dict.ScanRuns
