import Durastream.Lib.Lts
import Durastream.Lib.CrashFile
import Durastream.Codec
import Durastream.Stream.Log
import Durastream.Stream.Writer
import Durastream.Stream.Machine
import Durastream.Stream.Durability
import Durastream.Lib.Claims
import Durastream.Lib.LockFrame
import Durastream.Store.Streams
import Durastream.Stream.Visibility
import Durastream.Store.OneWriter
import Durastream.Store.Logged
import Durastream.Store.Preserved
import Durastream.Store.Closed
import Durastream.Store.Single
import Durastream.Store.Durable
import Durastream.Store.Fresh
import Durastream.Aio.BatchWriter
import Durastream.Aio.Subscribe
import Durastream.Store.Sequential
import Durastream.Store.Mirrors
import Durastream.Store.Methods
import Durastream.Store.Refines
import Durastream.Stream.Reading
import Durastream.Stream.Interrupts
import Durastream.Stream.Recovery
import Durastream.Stream.Listeners
import Durastream.Stream.Removed
import Durastream.Aio.Tail
import Durastream.Aio.Wait
import Durastream.Aio.Wakeups
import Durastream.Aio.Drain
import Durastream.Aio.Flushes
import Durastream.Aio.Buffer
import Durastream.Lib.Paths
import Durastream.Tokens
import Durastream.Store.Removal
import Durastream.Store.Ctor
import Durastream.Store.Creation
import Durastream.Aio.Hubs
import Durastream.Store.Locks
import Durastream.Stream.Damage
import Durastream.Aio.Loops
import Durastream.Aio.Awaited
import Durastream.Aio.Ends
import Durastream.Aio.CatchUp
import Durastream.Aio.Grouped
import Durastream.Store.Written
import Durastream.Store.Held
import Durastream.Demos.WorkQueue
import Durastream.Demos.Resume
