import Emilua.Actor.Accounts
import Emilua.Actor.Channels
import Emilua.Actor.Closing
import Emilua.Actor.Malformed
import Emilua.Actor.Operations
import Emilua.Actor.Scheduling
import Emilua.Actor.Senders
import Emilua.Actor.Services
import Emilua.Actor.Simulation
import Emilua.Actor.System
import Emilua.Actor.Tracking
import Emilua.Builder
import Emilua.Bytes.Appending
import Emilua.Bytes.Calls
import Emilua.Bytes.Contents
import Emilua.Bytes.Fields
import Emilua.Bytes.Handover
import Emilua.Bytes.Lines
import Emilua.Bytes.Patsplit
import Emilua.Bytes.Regex
import Emilua.Bytes.Scanner
import Emilua.Bytes.Span
import Emilua.Bytes.Table
import Emilua.Bytes.Transfers
import Emilua.Bytes.Trimming
import Emilua.Bytes.Windows
import Emilua.Coroutines.Balance
import Emilua.Cycles
import Emilua.Deserializer
import Emilua.Errors.Codes
import Emilua.Errors.Rdf
import Emilua.Gperf.Expansion
import Emilua.Import.CacheOrder
import Emilua.Import.Confinement
import Emilua.Import.Cycles
import Emilua.Import.Lexing
import Emilua.Import.Loading
import Emilua.Import.Native
import Emilua.Import.Resolution
import Emilua.Import.SameModule
import Emilua.Ip.Endpoint
import Emilua.Ipc.Agreement
import Emilua.Ipc.Allocator
import Emilua.Ipc.Completion
import Emilua.Ipc.Confinement
import Emilua.Ipc.Decoding
import Emilua.Ipc.Delivery
import Emilua.Ipc.Encoding
import Emilua.Ipc.Format
import Emilua.Ipc.Initialized
import Emilua.Ipc.Message
import Emilua.Ipc.Receive
import Emilua.Ipc.RoundTrip
import Emilua.Ipc.Send
import Emilua.Json.Decode
import Emilua.Json.Decoding
import Emilua.Json.Encoding
import Emilua.Json.Locating
import Emilua.Json.Recoding
import Emilua.Json.RoundTrip
import Emilua.Lib.Argv
import Emilua.Lib.Command
import Emilua.Lib.Dependencies
import Emilua.Lib.Emplace
import Emilua.Lib.FdTable
import Emilua.Lib.Handoff
import Emilua.Lib.Iterate
import Emilua.Lib.Keyed
import Emilua.Lib.Ledger
import Emilua.Lib.LexicalPath
import Emilua.Lib.Loop
import Emilua.Lib.Reentrant
import Emilua.Lib.Rendezvous
import Emilua.Lib.Split
import Emilua.Lib.Token
import Emilua.Lib.Transition
import Emilua.Lib.Wire
import Emilua.Lua
import Emilua.Sched.Arrivals
import Emilua.Sched.Conditions
import Emilua.Sched.Effects
import Emilua.Sched.FiberList
import Emilua.Sched.Futures
import Emilua.Sched.Interruption
import Emilua.Sched.Lifetime
import Emilua.Sched.Moves
import Emilua.Sched.Mutexes
import Emilua.Sched.RecursiveMutexes
import Emilua.Sched.Resumes
import Emilua.Sched.Runtime
import Emilua.Sched.Suspension
import Emilua.Sched.Waiting
import Emilua.Sched.Wakeups
import Emilua.Serializer
import Emilua.Serializing
import Emilua.Shim.Forwarding
import Emilua.Shim.Join
import Emilua.Stack
import Emilua.Subprocess.Systems
import Emilua.Time.TimePoint
import Emilua.Transfer
import Emilua.Unix.Custody
import Emilua.Unix.Descriptors
import Emilua.Unix.Spawn
import Emilua.Unix.SpawnTable
import Emilua.Value
import Emilua.Windows.CommandLine
import Emilua.Windows.Stdin
import Emilua.Windows.StdinCancel
import Emilua.Main.Options
import Emilua.Supervisor.Child
import Emilua.Supervisor.Mirror
