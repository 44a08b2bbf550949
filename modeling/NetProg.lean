import NetProg.Lib.Run
import NetProg.Lib.DList
import NetProg.Lib.Descent
import NetProg.Lib.Double
import NetProg.Lib.Potential
import NetProg.Prefork.Pool
import NetProg.Prefork.Protocol
import NetProg.Prefork.Moves
import NetProg.Prefork.Safety
import NetProg.Prefork.Spawn
import NetProg.Prefork.Harvest
import NetProg.Prefork.Quota
import NetProg.Prefork.Rounds
import NetProg.Prefork.Failures
import NetProg.Prefork.Rest
import NetProg.GroupChat.Groups
import NetProg.GroupChat.Refinement
import NetProg.GroupChat.Endpoints
import NetProg.GroupChat.Forward
import NetProg.GroupChat.Flood
import NetProg.GroupChat.FileTransfer
import NetProg.GroupChat.FileArrival
import NetProg.GroupChat.Commands
import NetProg.GroupChat.CommandText
import NetProg.GroupChat.CommandSafety
import NetProg.GroupChat.FindGroup
import NetProg.GroupChat.Network
import NetProg.GroupChat.Poll
import NetProg.GroupChat.Children
import NetProg.GroupChat.FileTable
import NetProg.Rtt.Queue
import NetProg.Rtt.Proto
import NetProg.Rtt.Scheduler
import NetProg.Rtt.Bounds
import NetProg.Rtt.Delivery
import NetProg.Rtt.Retirement
import NetProg.Rtt.Foreign
import NetProg.Rtt.Table
import NetProg.Rtt.Hash
import NetProg.Lib.OnesComplement
import NetProg.Rtt.Checksum
import NetProg.Rtt.Stopping
import NetProg.Rtt.Attempts
import NetProg.Rtt.Layout
import NetProg.Rtt.RoundTrip
import NetProg.Rtt.ReplyBytes
import NetProg.Rtt.JobOrder
import NetProg.Rtt.Wire
import NetProg.Rtt.Report
import NetProg.Lib.Block
import NetProg.Rtt.IpList
import NetProg.Cluster.Parse
import NetProg.Cluster.Strtok
import NetProg.Cluster.Leakage
import NetProg.Lib.FdTable
import NetProg.Lib.CString
import NetProg.Lib.Exchange
import NetProg.Lib.Memory
import NetProg.Lib.HashMap
import NetProg.Lib.TypedQueue
import NetProg.Lib.Conveyor
import NetProg.Lib.Stop
import NetProg.Lib.Objects
import NetProg.Lib.Tokens
import NetProg.Lib.SList
import NetProg.Shell.HashMap
import NetProg.Shell.Pipeline
import NetProg.Shell.Exec
import NetProg.Shell.Wiring
import NetProg.Shell.Dataflow
import NetProg.Shell.Bounded
import NetProg.Shell.CommandLine
import NetProg.Shell.LineShape
import NetProg.Lib.Words
import NetProg.Shell.Arguments
import NetProg.Shell.Storage
import NetProg.Shell.Redirection
import NetProg.Shell.Background
import NetProg.Shell.Shortcuts
import NetProg.Shell.ShortcutKeys
import NetProg.Shell.Blocks
import NetProg.Shell.Session
import NetProg.Shell.Buckets
import NetProg.Shell.Tee
import NetProg.Cluster.Handler
import NetProg.Cluster.Slots
import NetProg.Cluster.Execute
import NetProg.Cluster.Stream
import NetProg.Cluster.MachineNames
import NetProg.Cluster.MachineIndex
import NetProg.Cluster.Framing
import NetProg.MsgQueue.Server
import NetProg.MsgQueue.Faults
import NetProg.MsgQueue.Membership
import NetProg.MsgQueue.Identity
import NetProg.MsgQueue.Calls
import NetProg.MsgQueue.Answers
import NetProg.MsgQueue.Chat
import NetProg.MsgQueue.Conversations
import NetProg.MsgQueue.Expiry
import NetProg.MsgQueue.Channels
import NetProg.MsgQueue.Fanout
import NetProg.Cluster.Answer
import NetProg.Cluster.ConfigFile
import NetProg.Cluster.Terminal
