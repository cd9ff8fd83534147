import EpollHttpServer.Lib.Machine
import EpollHttpServer.Lib.Loop
import EpollHttpServer.Lib.Search
import EpollHttpServer.Lib.Ledger
import EpollHttpServer.Lib.Justified
import EpollHttpServer.Lib.Custody
import EpollHttpServer.Lib.BatchQueue
import EpollHttpServer.Lib.Tables
import EpollHttpServer.Lib.Exhaustion
import EpollHttpServer.Lib.History
import EpollHttpServer.Lib.Draining
import EpollHttpServer.Lib.PrefixCode
import EpollHttpServer.Http.Text
import EpollHttpServer.Http.Request
import EpollHttpServer.Http.Segmentation
import EpollHttpServer.Http.Lines
import EpollHttpServer.Http.Rounds
import EpollHttpServer.Http.StoredLines
import EpollHttpServer.Http.Grammar
import EpollHttpServer.Http.Unambiguous
import EpollHttpServer.Http.CompleteRequest
import EpollHttpServer.Http.Response
import EpollHttpServer.Http.Numerals
import EpollHttpServer.Http.Framing
import EpollHttpServer.Http.RoundTrip
import EpollHttpServer.Http.ContentLength
import EpollHttpServer.Http.Limits
import EpollHttpServer.Http.Rejection
import EpollHttpServer.Http.Spelling
import EpollHttpServer.Http.Storage
import EpollHttpServer.Reactor.Channel
import EpollHttpServer.Reactor.InterestSet
import EpollHttpServer.Reactor.Socket
import EpollHttpServer.Reactor.EventLoop
import EpollHttpServer.Reactor.EventLoopThread
import EpollHttpServer.Reactor.Shutdown
import EpollHttpServer.Reactor.Wakeups
import EpollHttpServer.Server.Connection
import EpollHttpServer.Server.Outcomes
import EpollHttpServer.Server.OutputStream
import EpollHttpServer.Server.Watched
import EpollHttpServer.Server.DeadSockets
import EpollHttpServer.Server.Invocations
import EpollHttpServer.Server.CloseDecision
import EpollHttpServer.Server.Conversation
import EpollHttpServer.Server.Completion
import EpollHttpServer.Server.Transparency
import EpollHttpServer.Server.Provenance
import EpollHttpServer.Server.Footprint
import EpollHttpServer.Server.HttpServer
import EpollHttpServer.Server.Stages
import EpollHttpServer.Server.Ownership
import EpollHttpServer.Server.Composition
import EpollHttpServer.Server.Descriptors
import EpollHttpServer.Server.Placement
import EpollHttpServer.Server.Lifetimes
import EpollHttpServer.Server.Turns
import EpollHttpServer.Server.Persistence
import EpollHttpServer.Server.Scheduling
import EpollHttpServer.Server.Liveness
import EpollHttpServer.Examples.ReactorServer
import EpollHttpServer.Examples.Clients
import EpollHttpServer.Examples.Removal
import EpollHttpServer.Examples.Exactness
