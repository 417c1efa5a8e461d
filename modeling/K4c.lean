import K4c.Lib.Exec
import K4c.Lib.Bytes
import K4c.Lib.Runs
import K4c.Lib.Words
import K4c.Lib.Links
import K4c.Lib.Tiling
import K4c.Error
import K4c.Mem.Size
import K4c.Mem.Allocator
import K4c.Datastruct.DoublyLinkedList
import K4c.Mem.GeneralHeap
import K4c.Buffer.Cursor
import K4c.Io.Reader
import K4c.Io.ReaderCalls
import K4c.Io.ReaderStream
import K4c.Io.ReaderReads
import K4c.Io.ReaderCursors
import K4c.Mem.HeapBlocks
import K4c.Mem.HeapCalls
import K4c.Mem.HeapClient
import K4c.Mem.HeapRuns
import K4c.Datastruct.BinaryHeap
import K4c.Datastruct.BinaryHeapCalls
import K4c.Datastruct.BinaryHeapRuns
import K4c.Datastruct.Deque
import K4c.Datastruct.DequeCalls
import K4c.Datastruct.DequeRuns
import K4c.Datastruct.DoublyLinkedListRuns
import K4c.Datastruct.LinkedList
import K4c.Datastruct.LinkedListRuns
import K4c.Datastruct.String
import K4c.Datastruct.StringCalls
import K4c.Datastruct.StringRuns
import K4c.Datastruct.ArenaUse
import K4c.Datastruct.OwnElements
import K4c.Datastruct.PutBack
import K4c.Datastruct.Reachable
import K4c.Datastruct.StringOwn
import K4c.Datastruct.VectorRuns
import K4c.Hash.Common
import K4c.Hash.CommonCalls
import K4c.Hash.Hashmap
import K4c.Hash.HashmapCalls
import K4c.Hash.HashmapRuns
import K4c.Hash.Hashset
import K4c.Hash.HashsetCalls
import K4c.Hash.HashsetRuns
import K4c.Mem.Arena
import K4c.Mem.ArenaRuns
import K4c.Mem.Backend
import K4c.Mem.HeapFailure
import K4c.Mem.HeapReleases
import K4c.Mem.Interchange
import K4c.Mem.Provenance
import K4c.Mem.Lifecycle
import K4c.Datastruct.Lifetimes
import K4c.Hash.IteratorCalls
import K4c.Hash.Turns
import K4c.Hash.Lifetimes
import K4c.Hash.Enumeration
import K4c.Hash.Requests
import K4c.Hash.LoadFactor
import K4c.Hash.HashsetStores
import K4c.Hash.Addresses
import K4c.Ownership
import K4c.Datastruct.VectorSearch
import K4c.Datastruct.VectorCollect
import K4c.Buffer.CursorRuns
import K4c.Lib.Growth
import K4c.Datastruct.Capacities
import K4c.Hash.EntryLayout
import K4c.Mem.TestAllocatorRuns
import K4c.Lib.Objects
import K4c.Datastruct.Kinds
import K4c.Hash.Kinds
import K4c.Program
import K4c.Lib.Files
import K4c.Io.File
import K4c.Io.FileRuns
import K4c.Lib.Pieces
import K4c.Io.ReaderLines
import K4c.Io.FileReader
import K4c.Lib.Selection
import K4c.Datastruct.HeapSort
import K4c.Lib.Programs
import K4c.Lib.Programmed
import K4c.Lib.ObjectPrograms
import K4c.Mem.Requests
import K4c.Mem.Programs
import K4c.Mem.Programmed
import K4c.Mem.TestAllocatorLive
import K4c.Datastruct.Programmed
import K4c.OverAllocators
import K4c.Mem.HeapRoom
import K4c.Datastruct.NodePool
import K4c.Mem.Handles
import K4c.Datastruct.Amortised
