import AmClient.Foundation.Runs
import AmClient.Foundation.Scheduling
import AmClient.Foundation.Codec
import AmClient.Foundation.Framing
import AmClient.Foundation.Replay
import AmClient.Foundation.Longest
import AmClient.Foundation.Binary32
import AmClient.Foundation.Numerals
import AmClient.Buffers
import AmClient.Udp.AsyncClient
import AmClient.Udp.Progress
import AmClient.Udp.Handoff
import AmClient.Udp.Waiting
import AmClient.Tcp.AsyncClient
import AmClient.Tcp.Phases
import AmClient.Tcp.Delivery
import AmClient.Tcp.Stream
import AmClient.Tcp.Window
import AmClient.Tcp.Fallback
import AmClient.Tcp.Waiting
import AmClient.Lifecycle.Thread
import AmClient.Lifecycle.Blocking
import AmClient.Osc.Pack
import AmClient.Osc.Message
import AmClient.Client.Calls
import AmClient.Client.Bundle
import AmClient.Client.Limits
import AmClient.Client.Flush
import AmClient.Client.Routing
import AmClient.Client.Independence
import AmClient.Tcp.Closing
import AmClient.Lifecycle.Destruction
import AmClient.Osc.Layout
import AmClient.Osc.Bounded
import AmClient.Client.Overrun
import AmClient.Osc.Appends
import AmClient.Osc.Grammar
import AmClient.Client.Encoding
import AmClient.Client.Packets
import AmClient.CommandLine.Arguments
import AmClient.CommandLine.Input
import AmClient.Lifecycle.Threads
import AmClient.Lifecycle.Refinement
import AmClient.Foundation.Draining
import AmClient.Tcp.Faultless
import AmClient.Lifecycle.Draining
import AmClient.Application.Composition
import AmClient.Application.EndToEnd
import AmClient.Lifecycle.Returning
import AmClient.Lifecycle.Waking
import AmClient.Application.Waiting
import AmClient.Osc.Packet
import AmClient.Osc.Builder
import AmClient.Osc.Cache
import AmClient.Client.Contents
import AmClient.Application.Values
import AmClient.CommandLine.Session
import AmClient.Osc.Size
import AmClient.Application.Program
import AmClient.Application.Finishing
import AmClient.Tcp.Silence
import AmClient.Lifecycle.Ending
import AmClient.Application.Ending
