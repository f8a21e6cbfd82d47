import Cmpsc473.Library.ByteMemory
import Cmpsc473.Library.Total
import Cmpsc473.Library.LinkedSegment
import Cmpsc473.Library.Tiling
import Cmpsc473.Library.Segregated
import Cmpsc473.Library.Transition
import Cmpsc473.Allocator.Word
import Cmpsc473.Allocator.Heap
import Cmpsc473.Allocator.Program
import Cmpsc473.Allocator.Pool
import Cmpsc473.Allocator.PoolInvariant
import Cmpsc473.Allocator.PoolCalls
import Cmpsc473.Allocator.FreeList
import Cmpsc473.Allocator.FreeListRemove
import Cmpsc473.Allocator.Represents
import Cmpsc473.Allocator.RefinesCoalesce
import Cmpsc473.Allocator.RefinesCalls
import Cmpsc473.Allocator.RefinesInterface
import Cmpsc473.Allocator.Session
import Cmpsc473.Allocator.SessionRefines
import Cmpsc473.Allocator.HeapShape
import Cmpsc473.Allocator.Safety
import Cmpsc473.Allocator.Canonical
import Cmpsc473.Allocator.Independence
import Cmpsc473.Allocator.Outcome
import Cmpsc473.Allocator.Reallocate
import Cmpsc473.Allocator.Failure
import Cmpsc473.Allocator.Wrap
import Cmpsc473.Allocator.Area
import Cmpsc473.Allocator.Calloc
import Cmpsc473.Allocator.CheckHeap
import Cmpsc473.Allocator.Kernel
import Cmpsc473.Allocator.Client
import Cmpsc473.Allocator.Steady
import Cmpsc473.Allocator.Routines
import Cmpsc473.Allocator.KernelHeap
import Cmpsc473.Allocator.Copies
import Cmpsc473.Allocator.NodeLists
import Cmpsc473.Allocator.Merge
import Cmpsc473.Library.BitField
import Cmpsc473.Library.PageWalk
import Cmpsc473.Library.WordTable
import Cmpsc473.PageTable.KernelInit
import Cmpsc473.PageTable.Tables
import Cmpsc473.PageTable.Translation
import Cmpsc473.PageTable.AddressTranslation
import Cmpsc473.PageTable.UserPointers
import Cmpsc473.PageTable.MemorySize
import Cmpsc473.Library.Loop
import Cmpsc473.Console.Framebuffer
import Cmpsc473.Console.Cursor
import Cmpsc473.Library.Ring
import Cmpsc473.Library.Census
import Cmpsc473.Library.WaitList
import Cmpsc473.Channels.Buffer
import Cmpsc473.Channels.Queue
import Cmpsc473.Channels.Channel
import Cmpsc473.Channels.Create
import Cmpsc473.Channels.Moves
import Cmpsc473.Channels.System
import Cmpsc473.Channels.SelectMoves
import Cmpsc473.Channels.Single
import Cmpsc473.Channels.Closing
import Cmpsc473.Channels.Ledger
import Cmpsc473.Channels.Permits
import Cmpsc473.Channels.Fifo
import Cmpsc473.Channels.Frozen
import Cmpsc473.Channels.WouldBlock
import Cmpsc473.Channels.Payload
import Cmpsc473.Channels.SelectLog
import Cmpsc473.Channels.Registry
import Cmpsc473.Channels.Waiters
import Cmpsc473.Channels.Wakeup
import Cmpsc473.Channels.Propagate
import Cmpsc473.Channels.LinkedList
import Cmpsc473.Channels.WaiterList
import Cmpsc473.Channels.WaiterCalls
import Cmpsc473.Library.Numeral
import Cmpsc473.Library.Sink
import Cmpsc473.Printf.Program
import Cmpsc473.Printf.Layout
import Cmpsc473.Printf.Scan
import Cmpsc473.Printf.Directives
import Cmpsc473.Printf.Conversions
import Cmpsc473.Printf.Meaning
import Cmpsc473.Printf.Formats
import Cmpsc473.Printf.Buffers
import Cmpsc473.Printf.Vprintf
import Cmpsc473.Printf.Numbers
import Cmpsc473.Library.Page
import Cmpsc473.Console.Screen
import Cmpsc473.SystemCalls.Handler
import Cmpsc473.SystemCalls.Entry
import Cmpsc473.Library.ParentTree
import Cmpsc473.Driver.SplayTree
import Cmpsc473.Driver.Splay
import Cmpsc473.Library.SearchTree
import Cmpsc473.Driver.Search
import Cmpsc473.Driver.TreeMap
import Cmpsc473.Driver.Remove
import Cmpsc473.Driver.FiniteMap
import Cmpsc473.Library.GappedList
import Cmpsc473.Library.ListMap
import Cmpsc473.Driver.Ranges
import Cmpsc473.Driver.RangeSet
import Cmpsc473.Driver.RangeCalls
import Cmpsc473.Driver.Overlaps
