import CoQueue.Lib.Schedule
import CoQueue.Lib.Path
import CoQueue.Lib.Token
import CoQueue.Lib.Mask
import CoQueue.Lib.Lazy
import CoQueue.Lib.Queues
import CoQueue.Lib.Files
import CoQueue.Shift.PtrGuard
import CoQueue.Shift.Stack
import CoQueue.Shift.Shared
import CoQueue.Shift.RawQueue
import CoQueue.Shift.Guards
import CoQueue.Shift.Invariant
import CoQueue.Shift.Conserve
import CoQueue.Shift.Fifo
import CoQueue.Shift.Reclaim
import CoQueue.Shift.Sequential
import CoQueue.Shift.Calls
import CoQueue.Shift.Retire
import CoQueue.Shift.Drop
import CoQueue.Shift.Format
import CoQueue.Mutex.Parking
import CoQueue.Mutex.RawMutex
import CoQueue.Mutex.Queued
import CoQueue.Mutex.Exclusion
import CoQueue.Mutex.Wakeup
import CoQueue.Mutex.TryLock
import CoQueue.Mutex.Guard
import CoQueue.Mutex.WordLock
import CoQueue.Mutex.WordSteps
import CoQueue.Mutex.WordInvariant
import CoQueue.Mutex.WordNodes
import CoQueue.Mutex.WordSafety
import CoQueue.Mutex.WordProgress
import CoQueue.Mutex.Bucket
import CoQueue.Mutex.Lot
import CoQueue.Mutex.LotSteps
import CoQueue.Mutex.LotTables
import CoQueue.Mutex.LotQueues
import CoQueue.Mutex.LotRefines
import CoQueue.Mutex.LotSafety
import CoQueue.Mutex.LotLoad
import CoQueue.Mutex.LotFair
import CoQueue.Mutex.LotWords
import CoQueue.Mutex.LotWordsSafety
import CoQueue.Mutex.Whole
import CoQueue.Mutex.WholeRefines
import CoQueue.Mutex.WholeSafety
import CoQueue.Lockless.Queue
import CoQueue.Lockless.Move
import CoQueue.Lockless.Placed
import CoQueue.Lockless.Switch
import CoQueue.Lockless.Log
import CoQueue.Lockless.Linear
import CoQueue.Lockless.Destroy
import CoQueue.Lockless.Rest
import CoQueue.Lockless.Quiesce
import CoQueue.Lockless.Claim
import CoQueue.Lockless.Len
import CoQueue.Lockless.Drop
import CoQueue.Blocking.Queue
import CoQueue.Blocking.Iter
import CoQueue.Lockless.Stream
import CoQueue.Lockless.IntoIter
