import Mqmx.Base.Transition
import Mqmx.WorkQueue.Refinement
import Mqmx.WorkQueue.EmptyTime
import Mqmx.WorkQueue.Ids
import Mqmx.WorkQueue.Liveness
import Mqmx.WorkQueue.Series
import Mqmx.Testing.Window
import Mqmx.Testing.Replay
import Mqmx.Testing.Stopping
import Mqmx.Testing.ForwardTime
import Mqmx.Testing.Truthful
import Mqmx.Poll.Alive
import Mqmx.Poll.Dangling
import Mqmx.Poll.Lone
import Mqmx.Poll.Timeout
import Mqmx.Poll.Waking
import Mqmx.Queue.Atomic
import Mqmx.Queue.Conservation
import Mqmx.Queue.Protocol
import Mqmx.Pool.Answers
import Mqmx.Pool.Pause
import Mqmx.Pool.Rest
import Mqmx.Pool.Rounds
import Mqmx.Pool.Routing
import Mqmx.Pool.Shutdown
import Mqmx.Pool.Sorted
