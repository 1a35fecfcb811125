import HttpServer.Address
import HttpServer.Bytes
import HttpServer.Config
import HttpServer.Context
import HttpServer.Decimal
import HttpServer.Decimal.Buffer
import HttpServer.Decimal.Shortest
import HttpServer.Demo.HelloWorld
import HttpServer.Demo.PingEcho
import HttpServer.Dispatcher
import HttpServer.Fields
import HttpServer.Handler
import HttpServer.Host
import HttpServer.IoError
import HttpServer.Json
import HttpServer.Json.Number
import HttpServer.Json.Parser
import HttpServer.Json.Printer
import HttpServer.Log
import HttpServer.Main
import HttpServer.Method
import HttpServer.Parse.Bytewise
import HttpServer.Parse.Error
import HttpServer.Parse.Linewise
import HttpServer.Path
import HttpServer.Pool
import HttpServer.Pool.Interleaving
import HttpServer.Proofs.Advancing
import HttpServer.Proofs.Agreement
import HttpServer.Proofs.Buffering
import HttpServer.Proofs.ByteGrammar
import HttpServer.Proofs.Capacities
import HttpServer.Proofs.Closing
import HttpServer.Proofs.Connections
import HttpServer.Proofs.Conserving
import HttpServer.Proofs.Declaring
import HttpServer.Proofs.Delivery
import HttpServer.Proofs.Dispatching
import HttpServer.Proofs.Display
import HttpServer.Proofs.Draining
import HttpServer.Proofs.Failing
import HttpServer.Proofs.Feeding
import HttpServer.Proofs.Finishing
import HttpServer.Proofs.Framing
import HttpServer.Proofs.Grammar
import HttpServer.Proofs.Head
import HttpServer.Proofs.Heads
import HttpServer.Proofs.Holding
import HttpServer.Proofs.LengthField
import HttpServer.Proofs.LineGrammar
import HttpServer.Proofs.Lines
import HttpServer.Proofs.MessageRun
import HttpServer.Proofs.Numerals
import HttpServer.Proofs.Offering
import HttpServer.Proofs.Overflowing
import HttpServer.Proofs.Paths
import HttpServer.Proofs.Places
import HttpServer.Proofs.Portions
import HttpServer.Proofs.PowersOfTwo
import HttpServer.Proofs.Receiving
import HttpServer.Proofs.Recognition
import HttpServer.Proofs.Recording
import HttpServer.Proofs.Registering
import HttpServer.Proofs.Resetting
import HttpServer.Proofs.Restarting
import HttpServer.Proofs.Retrying
import HttpServer.Proofs.Ring.History
import HttpServer.Proofs.Ring.Invariant
import HttpServer.Proofs.Ring.Laps
import HttpServer.Proofs.Ring.Safety
import HttpServer.Proofs.Ring.Solitary
import HttpServer.Proofs.Segmentation
import HttpServer.Proofs.Sending
import HttpServer.Proofs.Spelling
import HttpServer.Proofs.Starting
import HttpServer.Proofs.Submitting
import HttpServer.Proofs.Succession
import HttpServer.Proofs.Supply
import HttpServer.Proofs.Turns
import HttpServer.Proofs.Utf8
import HttpServer.Proofs.Waiting
import HttpServer.Proofs.WellFormed
import HttpServer.Proofs.Working
import HttpServer.Reception
import HttpServer.Request
import HttpServer.Response
import HttpServer.Ring
import HttpServer.Ring.Interleaving
import HttpServer.Server
import HttpServer.Server.Accept
import HttpServer.Server.EventLoop
import HttpServer.Server.Lifecycle
import HttpServer.Status
import HttpServer.Stream
import HttpServer.Stream.BufferReader
import HttpServer.Stream.Memory
import HttpServer.Stream.Reader
import HttpServer.Stream.Script
import HttpServer.Stream.Sink
import HttpServer.Stream.Socket
import HttpServer.Stream.Source
import HttpServer.Stream.Writer
import HttpServer.Text
import HttpServer.Word
