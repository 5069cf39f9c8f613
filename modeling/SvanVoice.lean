import SvanVoice.Library.Trace
import SvanVoice.Library.Unordered
import SvanVoice.Library.Rounding
import SvanVoice.Library.EdgePulse
import SvanVoice.Library.SlidingWindow
import SvanVoice.Library.Places
import SvanVoice.Model.State
import SvanVoice.Model.Brain
import SvanVoice.Model.Loops
import SvanVoice.Model.Publisher
import SvanVoice.Model.Bridge
import SvanVoice.Model.System
import SvanVoice.Model.Float
import SvanVoice.Model.Wire
import SvanVoice.Model.Threads
import SvanVoice.Model.Deployment
import SvanVoice.Laws.Bridge
import SvanVoice.Laws.Marks
import SvanVoice.Laws.Watchdog
import SvanVoice.Laws.Velocity
import SvanVoice.Laws.Exit
import SvanVoice.Laws.Envelope
import SvanVoice.Laws.Publisher
import SvanVoice.Laws.Direction
import SvanVoice.Laws.Link
import SvanVoice.Laws.Brain
import SvanVoice.Laws.Agreement
import SvanVoice.Laws.Overtaking
import SvanVoice.Laws.SleepLock
import SvanVoice.Laws.Limits
import SvanVoice.Laws.Snapshot
import SvanVoice.Laws.Buttons
import SvanVoice.Laws.Memory
import SvanVoice.Laws.Failure
import SvanVoice.Laws.Float
import SvanVoice.Laws.Stream
import SvanVoice.Laws.Wire
import SvanVoice.Laws.WireLink
import SvanVoice.Laws.Threads
import SvanVoice.Laws.Answers
import SvanVoice.Laws.Provenance
import SvanVoice.Laws.Deployment
import SvanVoice.Laws.Loops
import SvanVoice.Laws.MemoryBound
import SvanVoice.Laws.Heartbeat
import SvanVoice.Laws.Following
import SvanVoice.Laws.Shutdown
import SvanVoice.Laws.Silence
import SvanVoice.Laws.Orders
import SvanVoice.Laws.Echo
import SvanVoice.Laws.Progress
