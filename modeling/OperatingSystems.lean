import OperatingSystems.Library.CString
import OperatingSystems.Library.StringBuffer
import OperatingSystems.Library.CriticalSections
import OperatingSystems.Library.UriReference
import OperatingSystems.Library.FileSystem
import OperatingSystems.Library.Paths
import OperatingSystems.Library.FileCalls
import OperatingSystems.Library.NewNodes
import OperatingSystems.Library.Pruning
import OperatingSystems.Library.Socket
import OperatingSystems.Library.Sends
import OperatingSystems.Library.Threads
import OperatingSystems.Library.Machine
import OperatingSystems.Library.Custody
import OperatingSystems.Library.Locks
import OperatingSystems.Library.ByteMemory
import OperatingSystems.Library.Chain
import OperatingSystems.Library.Fifo
import OperatingSystems.Library.Descriptors
import OperatingSystems.Library.Segments
import OperatingSystems.Library.Objects
import OperatingSystems.Library.SegmentFit
import OperatingSystems.Library.Futex
import OperatingSystems.Library.Ring
import OperatingSystems.Library.Succession
import OperatingSystems.Heap.MyHeap
import OperatingSystems.Heap.Tiling
import OperatingSystems.Heap.Frame
import OperatingSystems.Heap.Fit
import OperatingSystems.Heap.Alignment
import OperatingSystems.Heap.Contents
import OperatingSystems.Heap.Erasure
import OperatingSystems.UThread.Scheduler
import OperatingSystems.UThread.RingWalk
import OperatingSystems.UThread.Identity
import OperatingSystems.UThread.Sleep
import OperatingSystems.UThread.Unmapping
import OperatingSystems.MyMutex.Mutex
import OperatingSystems.MyMutex.Exclusion
import OperatingSystems.MyMutex.Recursion
import OperatingSystems.MyMutex.Contention
import OperatingSystems.MyMutex.Wakeups
import OperatingSystems.MyMutex.Completion
import OperatingSystems.MyMutex.Termination
import OperatingSystems.SharedList.List
import OperatingSystems.SharedList.Holding
import OperatingSystems.SharedList.Order
import OperatingSystems.SharedList.Passes
import OperatingSystems.BoundedQueue.Queue
import OperatingSystems.BoundedQueue.Content
import OperatingSystems.BoundedQueue.Nodes
import OperatingSystems.BoundedQueue.Refinement
import OperatingSystems.BoundedQueue.Delivery
import OperatingSystems.BoundedQueue.Waiting
import OperatingSystems.LockedQueue.Locks
import OperatingSystems.LockedQueue.Queue
import OperatingSystems.LockedQueue.Content
import OperatingSystems.LockedQueue.Delivery
import OperatingSystems.Proxy.Request
import OperatingSystems.Proxy.Reading
import OperatingSystems.Proxy.Loader
import OperatingSystems.Proxy.Fetch
import OperatingSystems.Proxy.Redirects
import OperatingSystems.Proxy.HeaderBuffer
import OperatingSystems.Proxy.Arrays
import OperatingSystems.Proxy.CacheMap
import OperatingSystems.Proxy.ReadHeader
import OperatingSystems.Proxy.RoundTrip
import OperatingSystems.Proxy.Smuggling
import OperatingSystems.Proxy.Target
import OperatingSystems.Proxy.Location
import OperatingSystems.Proxy.ConnectionHeader
import OperatingSystems.Proxy.Segmentation
import OperatingSystems.Proxy.Refusal
import OperatingSystems.Proxy.Forwarding
import OperatingSystems.Proxy.CachePolicy
import OperatingSystems.Proxy.Server
import OperatingSystems.Proxy.Ownership
import OperatingSystems.Proxy.MapChain
import OperatingSystems.Proxy.Keys
import OperatingSystems.Proxy.NoStuck
import OperatingSystems.Proxy.Progress
import OperatingSystems.Proxy.Removal
import OperatingSystems.Proxy.Lifetime
import OperatingSystems.Proxy.Streaming
import OperatingSystems.Proxy.Refinement
import OperatingSystems.Proxy.Sockets
import OperatingSystems.Proxy.ShortSends
import OperatingSystems.Proxy.RequestBuffer
import OperatingSystems.Proxy.AcceptLoop
import OperatingSystems.Proxy.Connections
import OperatingSystems.SelectServer.ServerLoop
import OperatingSystems.SelectServer.Echo
import OperatingSystems.SelectServer.SlotTable
import OperatingSystems.MyThread.Thread
import OperatingSystems.MyThread.Regions
import OperatingSystems.MyThread.StackLifetime
import OperatingSystems.DirReverser.Reverse
import OperatingSystems.DirReverser.Untouched
import OperatingSystems.FsManager.Rmdir
import OperatingSystems.FsManager.Tree
import OperatingSystems.Library.Ledger
import OperatingSystems.BoundedQueue.Leaks
import OperatingSystems.Library.Sweep
import OperatingSystems.UThread.RoundRobin
import OperatingSystems.SelectServer.Window
import OperatingSystems.Heap.Merging
import OperatingSystems.Proxy.Packages
import OperatingSystems.DirReverser.Content
import OperatingSystems.DirReverser.Mirror
import OperatingSystems.FsManager.Removal
import OperatingSystems.FsManager.Honest
import OperatingSystems.Pagemap.ParseMaps
import OperatingSystems.Pagemap.MapsLine
import OperatingSystems.Pagemap.Lines
import OperatingSystems.TcpEcho.Server
import OperatingSystems.TcpEcho.Processes
import OperatingSystems.TcpEcho.Session
import OperatingSystems.TcpEcho.Exchange
import OperatingSystems.TcpEcho.Completion
import OperatingSystems.UdpEcho.Network
import OperatingSystems.UdpEcho.Echo
import OperatingSystems.Library.Printf
import OperatingSystems.Pagemap.ReadPagemap
import OperatingSystems.Pagemap.Entry
import OperatingSystems.Pagemap.Walk
import OperatingSystems.FsManager.Names
import OperatingSystems.UThread.Fairness
import OperatingSystems.BoundedQueue.Destroy
import OperatingSystems.MyThread.ReturnValue
import OperatingSystems.Library.Quiescence
import OperatingSystems.SharedList.Shutdown
import OperatingSystems.DirReverser.Turned
import OperatingSystems.Tracer.HeaderLines
import OperatingSystems.Tracer.Trace
