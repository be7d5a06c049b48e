import MutilsTasks.Library.Machine
import MutilsTasks.Library.SharedPtr
import MutilsTasks.Library.Tokens
import MutilsTasks.Library.Census
import MutilsTasks.Library.Tally
import MutilsTasks.Library.Mutex
import MutilsTasks.Library.Lanes
import MutilsTasks.Library.Upto
import MutilsTasks.Library.Places
import MutilsTasks.Library.Linked
import MutilsTasks.ResourcePool.Packs
import MutilsTasks.ResourcePool.PackProtocol
import MutilsTasks.ResourcePool.Stacks
import MutilsTasks.ResourcePool.Overdrawn
import MutilsTasks.ResourcePool.MarkLoop
import MutilsTasks.ResourcePool.Indices
import MutilsTasks.ResourcePool.Pool
import MutilsTasks.ResourcePool.Concurrent
import MutilsTasks.ResourcePool.ConcurrentPacks
import MutilsTasks.ResourcePool.ConcurrentIndices
import MutilsTasks.ResourcePool.Ownership
import MutilsTasks.ResourcePool.Partition
import MutilsTasks.ResourcePool.Affinity
import MutilsTasks.ResourcePool.HighWater
import MutilsTasks.ResourcePool.BuilderFailure
import MutilsTasks.ResourcePool.Attempts
import MutilsTasks.ResourcePool.HookFailure
import MutilsTasks.ResourcePool.Arguments
import MutilsTasks.ResourcePool.Capacity
import MutilsTasks.ResourcePool.Attended
import MutilsTasks.ResourcePool.Progress
import MutilsTasks.ResourcePool.Sequential
import MutilsTasks.ResourcePool.SequentialNoThrow
import MutilsTasks.ResourcePool.SequentialRefines
import MutilsTasks.ResourcePool.SequentialHandles
import MutilsTasks.ResourcePool.SequentialSpec
import MutilsTasks.AbortableLock.ConditionHeld
import MutilsTasks.AbortableLock.Guardian
import MutilsTasks.AbortableLock.Exclusion
import MutilsTasks.AbortableLock.Wakeups
import MutilsTasks.AbortableLock.Failure
import MutilsTasks.AbortableLock.Waiting
import MutilsTasks.DelayThread.Worker
import MutilsTasks.DelayThread.Survival
import MutilsTasks.DelayThread.Order
import MutilsTasks.DelayThread.Clients
import MutilsTasks.DelayThread.Joining
import MutilsTasks.GloballyBackedExecutor.Executor
import MutilsTasks.GloballyBackedExecutor.Cells
import MutilsTasks.GloballyBackedExecutor.Storage
import MutilsTasks.GloballyBackedExecutor.Growth
import MutilsTasks.GloballyBackedExecutor.Rest
import MutilsTasks.FutureFreePool.Launch
import MutilsTasks.FutureFreePool.Ids
import MutilsTasks.FutureFreePool.Closures
import MutilsTasks.FutureFreePool.Bound
import MutilsTasks.FutureFreePool.Rest
import MutilsTasks.ThreadPool.Pool
import MutilsTasks.ThreadPool.Wakeups
import MutilsTasks.ThreadPool.Threads
import MutilsTasks.ThreadPool.Rest
import MutilsTasks.ThreadPool.Tasks
import MutilsTasks.ThreadPool.Stopping
import MutilsTasks.ThreadPool.Settling
import MutilsTasks.BlockingQueue.Queue
import MutilsTasks.BlockingQueue.Permits
import MutilsTasks.BlockingQueue.Deadline
import MutilsTasks.ConcurrentQueue.FreeList
import MutilsTasks.ConcurrentQueue.FreeListPlaces
import MutilsTasks.ConcurrentQueue.FreeListRest
import MutilsTasks.ConcurrentQueue.Producer
import MutilsTasks.ConcurrentQueue.Claims
import MutilsTasks.ConcurrentQueue.Blocks
import MutilsTasks.ConcurrentQueue.GiveBack
import MutilsTasks.ConcurrentQueue.Construct
import MutilsTasks.ConcurrentQueue.Elements
