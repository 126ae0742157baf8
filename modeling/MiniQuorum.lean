import MiniQuorum.Consensus.Quorum
import MiniQuorum.Consensus.ReplicatedLog
import MiniQuorum.Consensus.Transitions
import MiniQuorum.Consensus.Safety
import MiniQuorum.Codec.Crc
import MiniQuorum.Codec.Frame
import MiniQuorum.Codec.Wire
import MiniQuorum.Raft.Types
import MiniQuorum.Raft.Log
import MiniQuorum.Raft.Node
import MiniQuorum.Storage.MemStorage
import MiniQuorum.Raft.Contiguous
import MiniQuorum.Server.Cluster
import MiniQuorum.Server.ReadyBatch
import MiniQuorum.Server.Provenance
import MiniQuorum.Server.Invariant
import MiniQuorum.Server.Leader
import MiniQuorum.Server.HostCall
import MiniQuorum.Server.ClusterInvariant
import MiniQuorum.Server.Runs
import MiniQuorum.Server.Safety
import MiniQuorum.Storage.DiskLog
import MiniQuorum.Storage.Recovery
import MiniQuorum.Storage.Refinement
import MiniQuorum.Storage.TornBatch
import MiniQuorum.Program.Wp
import MiniQuorum.Codec.ByteOrder
import MiniQuorum.Lsm.SimFS
import MiniQuorum.Lsm.Manifest
import MiniQuorum.Storage.Corruption
import MiniQuorum.Consensus.Linearizability
import MiniQuorum.StateMachine.MapSM
import MiniQuorum.StateMachine.ExactlyOnce
import MiniQuorum.Server.KV
import MiniQuorum.Server.KVInvariant
import MiniQuorum.Server.KVSteps
import MiniQuorum.Server.Linearizability
import MiniQuorum.Lsm.FSRules
import MiniQuorum.Codec.Uvarint
import MiniQuorum.Lsm.Bloom
import MiniQuorum.Program.Reading
import MiniQuorum.Lsm.SSTable
import MiniQuorum.Lsm.TableFormat
import MiniQuorum.StateMachine.Transcript
import MiniQuorum.Server.Requests
import MiniQuorum.Server.Inputs
import MiniQuorum.Server.Session
import MiniQuorum.Server.Interleaved
import MiniQuorum.Server.Justified
import MiniQuorum.Server.CommitIndex
import MiniQuorum.Server.Progress
import MiniQuorum.Server.MatchIndex
import MiniQuorum.Raft.Owed
import MiniQuorum.Server.Replay
import MiniQuorum.Server.DeliveryOrder
import MiniQuorum.Server.Waiters
import MiniQuorum.Server.FailStop
import MiniQuorum.Lsm.TableReads
import MiniQuorum.Lsm.TableIterator
import MiniQuorum.Lsm.SkipList
import MiniQuorum.Collections.BinaryHeap
import MiniQuorum.Lsm.Merge
import MiniQuorum.Lsm.ManifestFile
import MiniQuorum.Lsm.EngineState
import MiniQuorum.Lsm.Compaction
import MiniQuorum.Lsm.Engine
import MiniQuorum.Lsm.Volumes
import MiniQuorum.Lsm.TableRoundTrip
import MiniQuorum.Lsm.Survivors
import MiniQuorum.Lsm.Journal
import MiniQuorum.Lsm.CrashPrefix
import MiniQuorum.Consensus.Locality
import MiniQuorum.Checker.Model
import MiniQuorum.Checker.History
import MiniQuorum.Codec.LengthFrame
import MiniQuorum.Sim.CrashStorage
import MiniQuorum.Sim.CrashRecords
import MiniQuorum.Sim.PrefixEquivalence
import MiniQuorum.Sim.FaultSchedule
import MiniQuorum.Sim.Simulator
import MiniQuorum.Sim.TickStreams
import MiniQuorum.Collections.Newest
import MiniQuorum.Lsm.FileNumbers
import MiniQuorum.Lsm.Versions
import MiniQuorum.Lsm.ManifestSpec
import MiniQuorum.Lsm.StoredTables
import MiniQuorum.Lsm.EngineInvariant
import MiniQuorum.Lsm.CompactionSpec
import MiniQuorum.Program.Checked
import MiniQuorum.Codec.FrameScan
import MiniQuorum.Storage.SegmentGrammar
import MiniQuorum.Sim.CrashRuns
import MiniQuorum.Raft.WellFormed
import MiniQuorum.Lsm.TableSafety
import MiniQuorum.Lsm.CompactionRuns
import MiniQuorum.Raft.FollowerAppend
import MiniQuorum.Checker.EventOrder
import MiniQuorum.Program.Preserves
import MiniQuorum.Lsm.MemtableAccounting
import MiniQuorum.Codec.SelfDelimiting
import MiniQuorum.StateMachine.Digest
import MiniQuorum.Lsm.StateMachine
import MiniQuorum.Program.Draws
import MiniQuorum.Sim.FaultGen
import MiniQuorum.Checker.Recorder
import MiniQuorum.Workload.Runner
import MiniQuorum.Workload.Sessions
import MiniQuorum.Workload.Sequential
import MiniQuorum.Workload.Runs
import MiniQuorum.Raft.Effects
