import AdlServer.Runs
import AdlServer.Program
import AdlServer.Memory
import AdlServer.Cpp
import AdlServer.HttpParser
import AdlServer.RequestLine
import AdlServer.RequestHead
import AdlServer.RequestParse
import AdlServer.AcceptedRequest
import AdlServer.ParseHalts
import AdlServer.RequestRoundTrip
import AdlServer.ParsePrefix
import AdlServer.NetBuffer
import AdlServer.BufferRefinement
import AdlServer.Epoller
import AdlServer.TcpConnection
import AdlServer.ConnLifecycle
import AdlServer.SendStream
import AdlServer.MixedStream
import AdlServer.HttpServer
import AdlServer.BoundedBlockingQueue
import AdlServer.ThreadPool
import AdlServer.EventLoop
import AdlServer.AsyncLogging
import AdlServer.WriteSide
import AdlServer.GracefulShutdown
import AdlServer.CrossThreadSend
import AdlServer.ShortResponse
import AdlServer.FileDescriptors
import AdlServer.DocumentRoot
import AdlServer.RequestGrammar
import AdlServer.LogShutdown
import AdlServer.EventLoopThread
import AdlServer.EventLoopThreadPool
import AdlServer.Acceptor
import AdlServer.BufferGrowth
import AdlServer.HandleRead
import AdlServer.FileCopy
import AdlServer.ParseOutcome
import AdlServer.ParseThrows
import AdlServer.ParseMemory
import AdlServer.RequestBody
import AdlServer.ParseVerdict
import AdlServer.ClosedConnection
import AdlServer.BufferOverflow
import AdlServer.RejectedConnection
import AdlServer.ResponseFraming
import AdlServer.StrandedWorker
import AdlServer.LogAppend
import AdlServer.LogStream
import AdlServer.LastKey
import AdlServer.LogTime
import AdlServer.LogFile
import AdlServer.EchoService
import AdlServer.Retry
import AdlServer.FileUtil
import AdlServer.Pieces
import AdlServer.FileAppend
import AdlServer.CoEpoll
import AdlServer.SubLoop
import AdlServer.ReflectServer
import AdlServer.Conversation
import AdlServer.Draining
import AdlServer.ReleaseAcquire
import AdlServer.Singleton
import AdlServer.FixedWidth
import AdlServer.LogDelivery
import AdlServer.LogOrder
import AdlServer.BlockingQueue
import AdlServer.CrossThreadStream
import AdlServer.Holders
import AdlServer.Reclaiming
import AdlServer.ReflectEveryone
import AdlServer.EchoServices
import AdlServer.EchoSpans
import AdlServer.StrandedCoroutine
