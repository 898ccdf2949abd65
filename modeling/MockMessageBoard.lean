import MockMessageBoard.Analysis.Merge
import MockMessageBoard.Analysis.Recorded
import MockMessageBoard.Analysis.RelativeTimes
import MockMessageBoard.Analysis.Rows
import MockMessageBoard.Analysis.Stress
import MockMessageBoard.Analysis.Traces
import MockMessageBoard.Analysis.TreatData
import MockMessageBoard.Analysis.Uids
import MockMessageBoard.Board.Builds
import MockMessageBoard.Board.Chains
import MockMessageBoard.Board.Completion
import MockMessageBoard.Board.Database
import MockMessageBoard.Board.Filter
import MockMessageBoard.Board.Handlers
import MockMessageBoard.Board.Linear
import MockMessageBoard.Board.Pipelining
import MockMessageBoard.Board.Records
import MockMessageBoard.Board.Rejection
import MockMessageBoard.Board.Safety
import MockMessageBoard.Board.Serving
import MockMessageBoard.Board.Spans
import MockMessageBoard.Board.Summary
import MockMessageBoard.Board.ThreadClients
import MockMessageBoard.Board.Tracing
import MockMessageBoard.Board.Trails
import MockMessageBoard.Exec
import MockMessageBoard.Lib.BitFields
import MockMessageBoard.Lib.Csv
import MockMessageBoard.Lib.Groups
import MockMessageBoard.Lib.Linearizability
import MockMessageBoard.Lib.Regex
import MockMessageBoard.Lib.Rpc.Bounds
import MockMessageBoard.Lib.Rpc.Brackets
import MockMessageBoard.Lib.Rpc.Causality
import MockMessageBoard.Lib.Rpc.Evolution
import MockMessageBoard.Lib.Rpc.Layers
import MockMessageBoard.Lib.Rpc.Program
import MockMessageBoard.Lib.Rpc.Progress
import MockMessageBoard.Lib.Rpc.Runtime
import MockMessageBoard.Lib.Rpc.Sequential
import MockMessageBoard.Lib.Rpc.Simulation
import MockMessageBoard.Lib.Rpc.Threads
import MockMessageBoard.Lib.Stdio
import MockMessageBoard.Lib.Streams
import MockMessageBoard.Lib.Tables
import MockMessageBoard.Lib.Text
import MockMessageBoard.Lib.Transition
import MockMessageBoard.QueryUid
import MockMessageBoard.Stats.Concurrent
import MockMessageBoard.Stats.Csv
import MockMessageBoard.Stats.Dump
import MockMessageBoard.Stats.Dumping
import MockMessageBoard.Stats.Genuine
import MockMessageBoard.Stats.Interrupt
import MockMessageBoard.Stats.Manager
import MockMessageBoard.Stats.Races
import MockMessageBoard.Stats.Reads
import MockMessageBoard.Stats.Retention
import MockMessageBoard.Stats.Ring
import MockMessageBoard.Stats.Session
import MockMessageBoard.Stats.Versions
