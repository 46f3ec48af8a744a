import Bishlink.Lib.ByteCodec
import Bishlink.Lib.Checked
import Bishlink.Lib.FirstMatch
import Bishlink.Lib.SlotTable
import Bishlink.Lib.Runs
import Bishlink.Lib.KeyRing
import Bishlink.Lib.Ring
import Bishlink.Lib.Numbering
import Bishlink.Lib.Framing
import Bishlink.Lib.Reader
import Bishlink.Lib.FixedArray
import Bishlink.Lib.MarkedMin
import Bishlink.Lib.ByteSource
import Bishlink.Lib.Interpolation
import Bishlink.Track
import Bishlink.Subscription
import Bishlink.Packet
import Bishlink.Fec
import Bishlink.Assembler
import Bishlink.State
import Bishlink.ControlMessage
import Bishlink.Send
import Bishlink.Publish
import Bishlink.Datagram
import Bishlink.OneWayDelay
import Bishlink.Reassembly
import Bishlink.Control
import Bishlink.ControlCodec
import Bishlink.ControlChannel
import Bishlink.System
import Bishlink.Contexts
import Bishlink.Symbols
import Bishlink.DatagramBounds
import Bishlink.Arrivals
import Bishlink.AtMostOnce
import Bishlink.Accounting
import Bishlink.Sharding
import Bishlink.Collecting
import Bishlink.Codes
import Bishlink.Recovery
import Bishlink.Soundness
import Bishlink.Provenance
import Bishlink.Grouping
import Bishlink.Unpacking
import Bishlink.Lengths
import Bishlink.Directions
import Bishlink.Served
import Bishlink.StreamHandles
import Bishlink.Callback
import Bishlink.ControlChunks
import Bishlink.TrackStreams
import Bishlink.TrackChunks
import Bishlink.StreamOrder
import Bishlink.ObjectKeys
import Bishlink.Retransmission
import Bishlink.Authentication
import Bishlink.Disclosure
import Bishlink.Interfaces
import Bishlink.InterfaceReplay
import Bishlink.Sockets
import Bishlink.SocketAddresses
import Bishlink.SocketFollow
import Bishlink.PathStates
import Bishlink.PathDelay
import Bishlink.DataUds
import Bishlink.HelperStream
import Bishlink.HelperInput
import Bishlink.HelperFrames
import Bishlink.TrackHeader
import Bishlink.TundReader
import Bishlink.Daemon
import Bishlink.AliasAgreement
import Bishlink.Lib.RunningTotal
import Bishlink.Allocation
import Bishlink.Lib.Loop
import Bishlink.InterfaceScan
import Bishlink.SendSides
import Bishlink.Shutdowns
import Bishlink.StreamShutdown
import Bishlink.RaptorqDecode
import Bishlink.FecCache
import Bishlink.FecRecency
import Bishlink.SendSockets
import Bishlink.ConnectionSweep
import Bishlink.SubscriptionMap
import Bishlink.Lossless
import Bishlink.Feeding
import Bishlink.Forwarding
import Bishlink.TundWriter
import Bishlink.DaemonLink
import Bishlink.Repair
import Bishlink.ConnectionLife
import Bishlink.ConnectionNames
import Bishlink.Tunnel
import Bishlink.Lib.Records
import Bishlink.Netlink
import Bishlink.NetlinkDump
