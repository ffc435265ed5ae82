import IgLibs.Machine
import IgLibs.Circular
import IgLibs.Fifo
import IgLibs.Word
import IgLibs.RingBuffer
import IgLibs.RingBuffer.Theorems
import IgLibs.RingBuffer.Concurrent
import IgLibs.RingBuffer.Concurrent.Theorems
import IgLibs.RingBuffer.Alloc
import IgLibs.SharedQueue
import IgLibs.SharedQueue.Theorems
import IgLibs.SharedQueue.Notify
import IgLibs.ProtoDispatcher
import IgLibs.ProtoDispatcher.Theorems
import IgLibs.PluginLoader
import IgLibs.PluginLoader.Theorems
import IgLibs.PluginLoader.Ownership
import IgLibs.CString
import IgLibs.StringUtils
import IgLibs.TcpClient
import IgLibs.TcpClient.Theorems
import IgLibs.TcpClient.Descriptors
import IgLibs.TcpClient.Peer
import IgLibs.TcpClient.Stream
import IgLibs.RoundRobin
import IgLibs.TcpClientMgr
import IgLibs.TcpClientMgr.Select
import IgLibs.Acyclic
import IgLibs.Config
import IgLibs.Config.Theorems
import IgLibs.Config.Expansion
import IgLibs.RingBuffer.Capacity
import IgLibs.SharedQueue.Lifetime
import IgLibs.ProtoDispatcher.Delivery
import IgLibs.PluginLoader.Accounting
import IgLibs.Config.Reading
import IgLibs.Config.Termination
import IgLibs.Timer
import IgLibs.Timer.History
import IgLibs.Timer.Theorems
import IgLibs.SharedQueue.Concurrent
import IgLibs.SharedQueue.Concurrent.Theorems
import IgLibs.RingBuffer.Fork
import IgLibs.RingBuffer.Fork.Theorems
import IgLibs.StringUtils.Utf8
import IgLibs.TcpClient.Send
import IgLibs.TcpClient.Attempts
import IgLibs.TcpClient.Port
import IgLibs.TcpClient.Reconnect
import IgLibs.StringUtils.Theorems
import IgLibs.TcpClientMgr.Init
import IgLibs.FileSystem
import IgLibs.FsUtils
import IgLibs.FsUtils.Theorems
import IgLibs.Cursor
import IgLibs.Timer.Callbacks
import IgLibs.Timer.Callbacks.Theorems
import IgLibs.Timer.Callbacks.Progress
import IgLibs.Timer.Callbacks.Termination
import IgLibs.ProtoDispatcher.Callbacks
import IgLibs.ProtoDispatcher.Callbacks.Theorems
import IgLibs.ProtoDispatcher.Callbacks.Walks
import IgLibs.ProtoDispatcher.Callbacks.Notify
import IgLibs.ProtoDispatcher.Callbacks.Quiet
import IgLibs.StringUtils.Trim
import IgLibs.StringUtils.Decimal
import IgLibs.PluginLoader.Counts
import IgLibs.TcpClient.Returns
import IgLibs.Timer.Removal
import IgLibs.Ledger
import IgLibs.Thread
import IgLibs.Thread.Theorems
import IgLibs.FsUtils.Sizes
import IgLibs.Logger
import IgLibs.Archive
import IgLibs.Logger.Journal
import IgLibs.Daemon
import IgLibs.Daemon.Lock
import IgLibs.Descriptors
import IgLibs.Logger.Descriptors
import IgLibs.Logger.Retention
import IgLibs.Logger.Stamps
import IgLibs.Logger.Threads
import IgLibs.Singleton
import IgLibs.TcpClientMgr.Connections
import IgLibs.TcpClientMgr.Failover
import IgLibs.TcpClientMgr.Fairness
import IgLibs.Config.Format
import IgLibs.RingBuffer.Blocks
import IgLibs.SharedQueue.Resources
import IgLibs.ProtoDispatcher.Routing
import IgLibs.TcpClient.Timeouts
import IgLibs.Rounding
import IgLibs.FsUtils.Units
import IgLibs.Disk
import IgLibs.Logger.Outside
import IgLibs.Calendar
import IgLibs.CTime
import IgLibs.StringUtils.Time
import IgLibs.Logger.Times
import IgLibs.FileLister.Listing
