import Mathlib.Algebra.Order.Ring.Nat
import Mathlib.Tactic.DeriveFintype
import Mathlib.Data.List.AList
import Mathlib.Data.List.Infix
import Mathlib.Data.List.Perm.Basic
import Mathlib.Data.List.Sort
import Mathlib.Data.Nat.ModEq
import Mathlib.Logic.Relation

/-!
# The data model of the backup engine (`common/types.h`)

The constants, the enumerations and the records that the store, the scheduler and the
orchestrator pass around. Byte buffers are lists of `UInt8`; job ids are the code's `int`.

* `JobStatus`, `JobPriority`, `CompressionType` with the code's integer encodings;
* `BackupJob`, `ChunkInfo`, `FileManifest`;
* `chunkSize = 64 * 1024` and `maxWorkerProcesses = 4`.

Fields that no modelled function reads are left out: the job's `incremental` flag and
`parent_job_id`.
-/

namespace FileBackup

/-- A byte buffer (`std::vector<uint8_t>`). -/
abbrev Bytes := List UInt8

/-- `CHUNK_SIZE`: the fixed chunk length, 64 KiB. -/
def chunkSize : Nat := 64 * 1024

/-- `MAX_WORKER_PROCESSES`: the initial value of the worker semaphore. -/
def maxWorkerProcesses : Nat := 4

theorem chunkSize_pos : 0 < chunkSize := by decide

/-- `JobStatus`, in the order of its integer encoding `0, …, 4`. -/
inductive JobStatus
  | pending
  | running
  | completed
  | failed
  | cancelled
  deriving DecidableEq, Repr, Fintype

/-- `JobPriority`: `LOW < NORMAL < HIGH < URGENT`, encoded `0, …, 3`. -/
inductive JobPriority
  | low
  | normal
  | high
  | urgent
  deriving DecidableEq, Repr, Fintype

/-- `static_cast<int>(priority)`. -/
def JobPriority.toNat : JobPriority → Nat
  | .low => 0
  | .normal => 1
  | .high => 2
  | .urgent => 3

/-- `CompressionType`: `NONE`, `LZ4`, `ZSTD`. -/
inductive CompressionType
  | none
  | lz4
  | zstd
  deriving DecidableEq, Repr, Fintype

/-- `job_status_str`. -/
def JobStatus.str : JobStatus → String
  | .pending => "PENDING"
  | .running => "RUNNING"
  | .completed => "COMPLETED"
  | .failed => "FAILED"
  | .cancelled => "CANCELLED"

/-- A job as the code passes it around (`BackupJob`). -/
structure BackupJob where
  jobId : Int := -1
  sourcePath : String
  backupName : String
  status : JobStatus := .pending
  priority : JobPriority := .normal
  compression : CompressionType := .lz4
  encrypt : Bool := true
  createdAt : Nat := 0
  totalBytes : Nat := 0
  processedBytes : Nat := 0
  storedBytes : Nat := 0
  dedupSavings : Nat := 0
  fileCount : Nat := 0
  errorMessage : String := ""
  dependencies : List Int := []
  deriving DecidableEq, Repr

/-- One chunk of a file (`ChunkInfo`); `hash` is the 64-character hex form (`HashHex`). -/
structure ChunkInfo where
  hash : String
  offset : Nat := 0
  size : Nat := 0
  chunkIndex : Nat := 0
  deduplicated : Bool := false
  deriving DecidableEq, Repr

/-- The record of one backed-up file (`FileManifest`). -/
structure FileManifest where
  filePath : String
  fileName : String
  fileSize : Nat := 0
  modifiedTime : Nat := 0
  fileHash : String := ""
  chunks : List ChunkInfo := []
  deriving DecidableEq, Repr

/-! ### Positions on a ring of `n` slots -/

/-- Distinct offsets below `n` from one start land on distinct slots. -/
theorem add_mod_inj {h i j n : Nat} (hi : i < n) (hj : j < n) (e : (h + i) % n = (h + j) % n) :
    i = j := by
  have : i % n = j % n := Nat.ModEq.add_left_cancel' h e
  rwa [Nat.mod_eq_of_lt hi, Nat.mod_eq_of_lt hj] at this

/-- Every slot is some offset below `n` from any start. -/
theorem exists_add_mod_eq {h q n : Nat} (hq : q < n) : ∃ j < n, (h + j) % n = q := by
  refine ⟨(q + n - h % n) % n, Nat.mod_lt _ (by omega), ?_⟩
  have hmod := Nat.mod_lt h (show n > 0 by omega)
  have e : h + (q + n - h % n) = q + n * (h / n + 1) := by
    have := Nat.div_add_mod h n
    rw [Nat.mul_add, Nat.mul_one]; omega
  rw [Nat.add_mod_mod, e, Nat.add_mul_mod_self_left, Nat.mod_eq_of_lt hq]

end FileBackup
