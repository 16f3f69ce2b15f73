import LinuxExamples.Bytes
import LinuxExamples.Ctype
import LinuxExamples.Limits
import LinuxExamples.Runs
import LinuxExamples.ForkEcho
import LinuxExamples.HelloWorld
import LinuxExamples.RequestBounds
import LinuxExamples.PartialTransfer
import LinuxExamples.IntTransfer
import LinuxExamples.UdpEcho
import LinuxExamples.UnixSocket
import LinuxExamples.PollMonitor
import LinuxExamples.SharedMemory
import LinuxExamples.SharedReports
import LinuxExamples.UnnamedSemaphore
import LinuxExamples.UnnamedMonitor
import LinuxExamples.QuietMonitors
import LinuxExamples.FileMonitor
import LinuxExamples.UdpClients
import LinuxExamples.Permits
import LinuxExamples.SysvSemaphore
import LinuxExamples.PthreadMutex
import LinuxExamples.BroadcastUdp
import LinuxExamples.ReplyClients
import LinuxExamples.ChatServer
import LinuxExamples.AnonMmap
import LinuxExamples.AnonReports
import LinuxExamples.TcpEcho
import LinuxExamples.TcpLockStep
import LinuxExamples.EchoLoops
import LinuxExamples.ReceiveLoop
import LinuxExamples.UdpTyped
import LinuxExamples.SembufFlags
import LinuxExamples.SemIndex
import LinuxExamples.SenderBounds
import LinuxExamples.SentBytes
import LinuxExamples.UnixAddress
import LinuxExamples.MmapRecord
import LinuxExamples.LineTerminators
import LinuxExamples.InputEnd
import LinuxExamples.CoherentReports
import LinuxExamples.RandomID
import LinuxExamples.Access
import LinuxExamples.Mailbox
import LinuxExamples.SysvQueue
import LinuxExamples.PosixQueue
import LinuxExamples.Channels
import LinuxExamples.LinearChannels
import LinuxExamples.Delivery
import LinuxExamples.ForkPipes
import LinuxExamples.PipeExample
import LinuxExamples.SocketPair
import LinuxExamples.NamedPipe
import LinuxExamples.Demand
import LinuxExamples.NamedSemaphore
import LinuxExamples.SocketRuns
import LinuxExamples.LsReply
import LinuxExamples.SigAction
import LinuxExamples.ForkExec
import LinuxExamples.AnonChildren
import LinuxExamples.AnonReturns
