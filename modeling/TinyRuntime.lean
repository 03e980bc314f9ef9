import TinyRuntime.Lib.Transition
import TinyRuntime.Lib.Program
import TinyRuntime.Lib.Concurrent
import TinyRuntime.Lib.Blind
import TinyRuntime.Lib.Rely
import TinyRuntime.Lib.Ghost
import TinyRuntime.Lib.Typestate
import TinyRuntime.Lib.Progress
import TinyRuntime.Lib.Separator
import TinyRuntime.Lib.Quoted
import TinyRuntime.Lib.Disk
import TinyRuntime.Lib.History
import TinyRuntime.Lib.Document
import TinyRuntime.Lib.Decimal
import TinyRuntime.Lib.Reading
import TinyRuntime.Store.State
import TinyRuntime.Store.Promote
import TinyRuntime.Bus.Worker
import TinyRuntime.Bus.Runtime
import TinyRuntime.Bus.Pool
import TinyRuntime.Worker.State
import TinyRuntime.Worker.Native
import TinyRuntime.Worker.Line
import TinyRuntime.Worker.Actor
import TinyRuntime.Worker.Supervisor
import TinyRuntime.Worker.Quiet
import TinyRuntime.Worker.Replay
import TinyRuntime.Worker.Custody
import TinyRuntime.Worker.Serving
import TinyRuntime.Worker.Backoff
import TinyRuntime.Worker.Published
import TinyRuntime.Worker.Phase
import TinyRuntime.Worker.Sync
import TinyRuntime.Worker.Wire
import TinyRuntime.Resolve.Memo
import TinyRuntime.Resolve.Reuse
import TinyRuntime.Resolve.Install
import TinyRuntime.Resolve.Conduct
import TinyRuntime.Resolve.Exclusive
import TinyRuntime.Pool.Protocol
import TinyRuntime.Pool.State
import TinyRuntime.Pool.Worker
import TinyRuntime.Pool.LangPool
import TinyRuntime.Pool.Conduct
import TinyRuntime.Pool.Bound
import TinyRuntime.Pool.Budget
import TinyRuntime.Pool.Queue
import TinyRuntime.Pool.Delivery
import TinyRuntime.Pool.Admission
import TinyRuntime.Pool.Replies
import TinyRuntime.Pool.Fingerprint
import TinyRuntime.Pool.Pools
import TinyRuntime.Pool.Rebuild
import TinyRuntime.Bus.Harness
import TinyRuntime.Exec.State
import TinyRuntime.Exec.Execute
import TinyRuntime.Exec.Conduct
import TinyRuntime.Exec.Torn
import TinyRuntime.Exec.Current
import TinyRuntime.Exec.Isolated
import TinyRuntime.PyServer.State
import TinyRuntime.PyServer.Server
import TinyRuntime.PyServer.Conduct
import TinyRuntime.PyServer.Locks
import TinyRuntime.PyServer.Slot
import TinyRuntime.PyServer.Frames
import TinyRuntime.Cache.Scope
import TinyRuntime.Worker.Validate
import TinyRuntime.Cache.Recipe
import TinyRuntime.Worker.Manager
import TinyRuntime.Worker.Handles
import TinyRuntime.Worker.Signal
import TinyRuntime.Worker.Book
import TinyRuntime.Worker.Barrier
import TinyRuntime.Worker.Admission
import TinyRuntime.Worker.Child
import TinyRuntime.Worker.Reap
import TinyRuntime.Worker.Drain
import TinyRuntime.Pool.Deadline
import TinyRuntime.Lib.Inodes
import TinyRuntime.Cache.State
import TinyRuntime.Cache.Filesystem
import TinyRuntime.Lib.Attempt
import TinyRuntime.Cache.Session
import TinyRuntime.Cache.Filling
import TinyRuntime.Cache.Cleanup
import TinyRuntime.Cache.Portable
import TinyRuntime.Cache.Identity
import TinyRuntime.Pool.Matched
import TinyRuntime.Resolve.Naming
import TinyRuntime.Lib.Version
import TinyRuntime.PyServer.Deadline
import TinyRuntime.Resolve.Newest
import TinyRuntime.Resolve.Within
import TinyRuntime.Resolve.Landed
import TinyRuntime.Resolve.Nested
import TinyRuntime.Resolve.Aliases
import TinyRuntime.Lib.Modes
import TinyRuntime.Archive.Zip
import TinyRuntime.Resolve.Progress
import TinyRuntime.Lib.Leaves
import TinyRuntime.Resolve.Found
import TinyRuntime.Resolve.Archives
import TinyRuntime.Resolve.Kept
import TinyRuntime.Resolve.Verbatim
