import FileBackup.Basic
import FileBackup.Dag
import FileBackup.Dag.HasPath
import FileBackup.Dag.Acyclic
import FileBackup.Dag.TopoSort
import FileBackup.Database
import FileBackup.Scheduler
import FileBackup.Orchestrator.Basic
import FileBackup.Orchestrator.Single
import FileBackup.Orchestrator.Multi
import FileBackup.WorkerBound
import FileBackup.DependencyOrder
import FileBackup.AtMostOnce
import FileBackup.Lifecycle
import FileBackup.Cascade
import FileBackup.Stranding
import FileBackup.Paths
import FileBackup.Fs
import FileBackup.Codec
import FileBackup.ChunkStore
import FileBackup.Snapshot
import FileBackup.Worker
import FileBackup.Restore
import FileBackup.MetadataFaults
import FileBackup.RefCount
import FileBackup.Dedup
import FileBackup.Rebackup
import FileBackup.Manifest
import FileBackup.CircularBuffer
import FileBackup.PriorityQueue
import FileBackup.HashMap
import FileBackup.Isolation
import FileBackup.BPlusTree.Basic
import FileBackup.BPlusTree.Invariant
import FileBackup.BPlusTree.Refines
import FileBackup.RollingChecksum
import FileBackup.HashFile
import FileBackup.Fs.Remove
import FileBackup.Snapshot.Remove
import FileBackup.Fs.Frame
import FileBackup.RoundTrip.Chunk
import FileBackup.RoundTrip.Store
import FileBackup.Tiling
import FileBackup.RoundTrip.Restore
import FileBackup.RoundTrip.Job
import FileBackup.Verify
import FileBackup.RoundTrip.Durable
import FileBackup.Stats
import FileBackup.Integrity
