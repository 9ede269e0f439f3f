import CoordinateStream.Lib.Machine
import CoordinateStream.Lib.Sampler
import CoordinateStream.Lib.StopFlag
import CoordinateStream.Lib.Pacer
import CoordinateStream.Lib.Binary64
import CoordinateStream.Lib.DoubleArith
import CoordinateStream.Lib.Accumulator
import CoordinateStream.Lib.Monitor
import CoordinateStream.Lib.Ranking
import CoordinateStream.Lib.CxxText
import CoordinateStream.Lib.Json
import CoordinateStream.CoordinateProducer
import CoordinateStream.MessengerPublisherApp
import CoordinateStream.WebSocketServer
import CoordinateStream.PublisherProcess
import CoordinateStream.Emission
import CoordinateStream.Freshness
import CoordinateStream.WireOrder
import CoordinateStream.MessengerSubscriberApp
import CoordinateStream.SampleIdentity
import CoordinateStream.Parsing
import CoordinateStream.Drain
import CoordinateStream.Csv
import CoordinateStream.DataReader
import CoordinateStream.EndToEnd
import CoordinateStream.StopProtocol
import CoordinateStream.MatchGate
import CoordinateStream.Pacing
import CoordinateStream.Residue
import CoordinateStream.Clients
import CoordinateStream.JsonText
import CoordinateStream.TextFormat
import CoordinateStream.ServerLifecycle
import CoordinateStream.Closing
import CoordinateStream.Messengermain
import CoordinateStream.Construction
import CoordinateStream.Shutdown
import CoordinateStream.CoordinateGenerator
import CoordinateStream.WholeSystem
import CoordinateStream.Linearizability
import CoordinateStream.Uptime
import CoordinateStream.MainProcess
import CoordinateStream.Exit
import CoordinateStream.Delivery
import CoordinateStream.Latency
import CoordinateStream.Forwarding
import CoordinateStream.Conversation
import CoordinateStream.MainSubscriber
