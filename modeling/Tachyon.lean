import Tachyon.Lib.Bits
import Tachyon.Lib.HttpReader
import Tachyon.Lib.PrefixFree
import Tachyon.Network.Tsocket
import Tachyon.Proofs.UserData
import Tachyon.Server
import Tachyon.Proofs.Outcomes
import Tachyon.Proofs.Boot
import Tachyon.Proofs.Invariant
import Tachyon.Proofs.Lifecycle
import Tachyon.Proofs.Descriptors
import Tachyon.Proofs.Recv
import Tachyon.Proofs.Send
import Tachyon.Proofs.Release
import Tachyon.Proofs.Forward
import Tachyon.Proofs.Accept
import Tachyon.Proofs.Routing
import Tachyon.Proofs.Scan
import Tachyon.Proofs.Pipeline
import Tachyon.Proofs.OutBuffer
import Tachyon.Proofs.Clients
import Tachyon.Proofs.Starts
import Tachyon.Proofs.Windows
import Tachyon.Proofs.Stale
import Tachyon.Proofs.Framing
import Tachyon.Proofs.Listener
import Tachyon.Proofs.Buffers
import Tachyon.Proofs.Losses
import Tachyon.Proofs.Restart
import Tachyon.Proofs.Passes
import Tachyon.Proofs.Hostile
import Tachyon.Proofs.PacketRing
import Tachyon.Proofs.Packets
import Tachyon.Proofs.Skips
import Tachyon.Proofs.Segmentation
import Tachyon.Proofs.SlabCopy
import Tachyon.Proofs.Trims
import Tachyon.Proofs.Shifts
import Tachyon.Proofs.Queue
import Tachyon.Network.PacketRing
import Tachyon.Lib.Copy
import Tachyon.Proofs.RightTrim
import Tachyon.Proofs.SafeShift
import Tachyon.Proofs.Flatten
import Tachyon.Lib.Answering
import Tachyon.Lib.Trace
import Tachyon.Proofs.Deliveries
import Tachyon.Proofs.Lives
import Tachyon.Proofs.Turns
import Tachyon.Lib.Bpf
import Tachyon.Network.Filter
import Tachyon.Proofs.BootDma
import Tachyon.Proofs.Filter
import Tachyon.Proofs.Replay
import Tachyon.Proofs.SqThread
import Tachyon.Network.Capture
import Tachyon.Proofs.Capture
import Tachyon.Proofs.Clock
import Tachyon.Proofs.Exchange
import Tachyon.Proofs.Extension
import Tachyon.Proofs.Zero
import Tachyon.Proofs.Stops
