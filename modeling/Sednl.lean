import Sednl.Library.Endian
import Sednl.Library.Memory
import Sednl.Library.Word
import Sednl.Wire.Acceptance
import Sednl.Wire.Packet
import Sednl.Wire.Reader
import Sednl.Wire.RoundTrip
import Sednl.Wire.ReaderSafety
import Sednl.Library.Circular
import Sednl.Ring.RingBuf
import Sednl.Ring.Fifo
import Sednl.Ring.Pick
import Sednl.Ring.Placement
import Sednl.Ring.Receive
import Sednl.Ring.Lossless
import Sednl.Library.Transition
import Sednl.Net.Connections
import Sednl.Net.Disconnect
import Sednl.Net.EventLoop
import Sednl.Net.Dispatch
import Sednl.Library.PrefixCode
import Sednl.Wire.Written
import Sednl.Ring.Wedge
import Sednl.Net.Outgoing
import Sednl.Net.Framing
import Sednl.Net.WakeUp
import Sednl.Net.Routing
import Sednl.Library.Handles
import Sednl.Net.Descriptors
import Sednl.Net.Shutdown
import Sednl.Net.Signal
import Sednl.Net.QueueBound
import Sednl.Net.Collision
import Sednl.Library.Association
import Sednl.Net.Attach
import Sednl.Net.Producer
import Sednl.Library.Locks
import Sednl.Net.Locking
import Sednl.Wire.Readable
import Sednl.Wire.Canonical
import Sednl.Ring.Drop
import Sednl.Ring.Twin
import Sednl.Ring.Offset
import Sednl.Net.Session
import Sednl.Net.Transmission
import Sednl.Ring.Starved
import Sednl.Ring.Overflow
import Sednl.Ring.Drain
import Sednl.Ring.Refusal
import Sednl.Net.Admission
import Sednl.Wire.Refused
import Sednl.Net.Connect
import Sednl.Wire.Printing
import Sednl.Wire.Commit
import Sednl.Net.Select
import Sednl.Library.Sharing
import Sednl.Net.Delivery
import Sednl.Library.Incremental
import Sednl.Ring.Untrusted
import Sednl.Net.Sweep
import Sednl.Library.Completion
import Sednl.Net.WsaPoll
import Sednl.Wire.Serializer
import Sednl.Library.RoundRobin
import Sednl.Net.Readiness
import Sednl.Net.Passage
