import NsqClient.Frame
import NsqClient.Conservation
import NsqClient.Completeness
import NsqClient.Writing
import NsqClient.CommandParser
import NsqClient.Dispatch
import NsqClient.EventLoop
import NsqClient.Steps
import NsqClient.Lockstep
import NsqClient.Confinement
import NsqClient.Gating
import NsqClient.Availability
import NsqClient.Past
import NsqClient.PlaintextCarry
import NsqClient.Delivery
import NsqClient.Downgrade
import NsqClient.Twins
import NsqClient.Validity
import NsqClient.Matching
import NsqClient.Reporting
import NsqClient.Threads
import NsqClient.Batches
import NsqClient.Wakeups
import NsqClient.Endings
import NsqClient.Isolation
import NsqClient.Handling
import NsqClient.Sizes
import NsqClient.MultiPublish
import NsqClient.Boundaries
import NsqClient.Acknowledgement
import NsqClient.InFlight
import NsqClient.Connecting
import NsqClient.Heartbeats
import NsqClient.Lib.Monitor
import NsqClient.Inbound
import NsqClient.Workers
import NsqClient.Jobs
import NsqClient.Serial
import NsqClient.Transcript
import NsqClient.EndToEnd
import NsqClient.Shutdown
import NsqClient.Rest
import NsqClient.Progress
import NsqClient.Crashes
import NsqClient.Panics
