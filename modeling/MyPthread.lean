import MyPthread.Lib.Word
import MyPthread.Lib.Memory
import MyPthread.Lib.Tiling
import MyPthread.Heap.Header
import MyPthread.Heap.Mymalloc
import MyPthread.Heap.Layout
import MyPthread.Heap.Represent
import MyPthread.Heap.Allocate
import MyPthread.Heap.Release
import MyPthread.Heap.Client
import MyPthread.Heap.Invariant
import MyPthread.Heap.Search
import MyPthread.Heap.Undo
import MyPthread.Lib.Links
import MyPthread.Sched.State
import MyPthread.Sched.Mlfq
import MyPthread.Sched.Queues
import MyPthread.Sched.Refine
import MyPthread.Sched.Pointers
import MyPthread.Api.Machine
import MyPthread.Api.Flow
import MyPthread.Api.Mutex
import MyPthread.Api.Invariant
import MyPthread.Api.Rescheduling
import MyPthread.Api.Steps
import MyPthread.Api.Join
import MyPthread.Api.Waiters
import MyPthread.Api.Exit
import MyPthread.Lib.Placement
import MyPthread.Paging.State
import MyPthread.Os.Region
import MyPthread.Paging.Myallocate
import MyPthread.Paging.Table
import MyPthread.Paging.Moves
import MyPthread.Paging.Calls
import MyPthread.Paging.Steady
import MyPthread.Paging.Sound
import MyPthread.Paging.Counters
import MyPthread.Paging.Refusal
import MyPthread.Paging.Locked
import MyPthread.Paging.Settled
import MyPthread.Paging.Growth
import MyPthread.Paging.Swaps
import MyPthread.Paging.Work
import MyPthread.Paging.Service
import MyPthread.Paging.Chains
import MyPthread.Paging.Heaps
import MyPthread.Heap.Count
import MyPthread.Paging.First
import MyPthread.Paging.View
import MyPthread.Paging.Good
import MyPthread.Paging.Payloads
import MyPthread.Paging.Progress
import MyPthread.Paging.Sessions
import MyPthread.Paging.Private
import MyPthread.Paging.Thrift
import MyPthread.Heap.Frees
import MyPthread.Paging.Cascade
import MyPthread.Paging.Sizing
import MyPthread.Api.Yield
import MyPthread.Api.Destroy
import MyPthread.Paging.Later
import MyPthread.Paging.Displaced
import MyPthread.Paging.Returns
import MyPthread.Paging.Limits
import MyPthread.Paging.Faults
import MyPthread.Paging.Spared
import MyPthread.Paging.Shared
import MyPthread.Heap.Stale
import MyPthread.Lib.Ranking
import MyPthread.Sched.Aging
import MyPthread.Api.Turns
import MyPthread.Api.Control
import MyPthread.Api.Starvation
import MyPthread.Api.Faults
import MyPthread.Api.Completion
import MyPthread.Api.Frame
import MyPthread.Api.Conservation
import MyPthread.Api.Deadlock
import MyPthread.System.Process
import MyPthread.Paging.Protection
import MyPthread.System.Sessions
import MyPthread.Lib.Gaps
import MyPthread.Heap.Canonical
import MyPthread.Heap.Fresh
import MyPthread.Api.Timer
import MyPthread.Api.Exited
import MyPthread.Paging.Slices
import MyPthread.Paging.RoundTrip
import MyPthread.System.Values
import MyPthread.Lib.Cycles
import MyPthread.Api.Handoff
import MyPthread.Api.Idle
import MyPthread.Paging.Alone
import MyPthread.System.Alone
