import FileBackup.ChunkStore
import FileBackup.Snapshot
import FileBackup.Orchestrator.Basic

/-!
# The worker (`backup/worker.h`)

`BackupWorker::execute` runs one job: `RUNNING`, a snapshot, `store_file` on every file the
snapshot lists, the job's key when it encrypts, the counters, `COMPLETED`, and the snapshot's
removal. Only the snapshot decides `Result.success`: the results of the metadata writes are not
looked at.

* `Result`, `tally` (the counters of one chunk), `relPath`, `fileStep` (one file), `execute`;
* `execute_workerRun`: the jobs table changes as `workerWrites` says, so `execute` is a
  `WorkerRun` of the loops of `Orchestrator.Single` and `Orchestrator.Multi`.

Progress messages go to the message queue, which no modelled function reads; they are left out.
-/

namespace FileBackup

/-- `BackupWorker::Result`. -/
structure Result where
  jobId : Int
  success : Bool := false
  totalBytes : Nat := 0
  storedBytes : Nat := 0
  dedupSavings : Nat := 0
  fileCount : Nat := 0
  error : String := ""
  deriving DecidableEq, Repr

/-- `data_dir + "/storage"`, the chunk store's directory. -/
def storageDir (dataDir : String) : String := dataDir ++ "/storage"

/-- `data_dir + "/snapshots"`, the snapshot manager's base directory. -/
def snapshotsDir (dataDir : String) : String := dataDir ++ "/snapshots"

namespace Worker

/-- The counters of one chunk of a stored file: a deduplicated chunk's size goes to
`dedup_savings`, another's stored size (from `get_chunk_meta`) to `stored_bytes`. -/
def tally (db : Db) (r : Result) (c : ChunkInfo) : Result :=
  if c.deduplicated then { r with dedupSavings := r.dedupSavings + c.size }
  else match db.getChunkMeta c.hash with
    | some m => { r with storedBytes := r.storedBytes + m.storedSize }
    | none => r

/-- `snap_base`: the snapshot path with a trailing `/`. -/
def snapBase (snapshotPath : String) : String :=
  if snapshotPath ≠ "" ∧ snapshotPath.data.getLast? ≠ some '/' then snapshotPath ++ "/"
  else snapshotPath

/-- The path of a listed file relative to the snapshot: what follows `snap_base`, or else the
base name. -/
def relPath (base filePath : String) : String :=
  if filePath.data.take base.length = base.data then ⟨filePath.data.drop base.length⟩
  else basenameOf filePath

/-- The state of the file loop: the result so far, `processed`, the world. -/
structure Tally where
  result : Result
  processed : Nat
  sys : Sys

/-- One pass of the file loop: a file that does not stat is skipped; another is stored, its
chunks tallied and its size added to `processed`. -/
def fileStep (env : Env) (dataDir : String) (job : BackupJob) (key : Bytes32) (base : String)
    (t : Tally) (filePath : String) : Tally :=
  match t.sys.fs.statSize (splitPath filePath) with
  | none => t
  | some _ =>
    let r := ChunkStore.storeFile env (storageDir dataDir) t.sys filePath job.compression
      job.encrypt key job.jobId (relPath base filePath)
    ⟨r.1.chunks.foldl (tally r.2.db) t.result, t.processed + r.1.fileSize, r.2⟩

/-- The file loop of `execute` over the files the snapshot lists, from the result with
`file_count` and `total_bytes` (the sum of the sizes of the files that stat). -/
def storeFiles (env : Env) (dataDir : String) (job : BackupJob) (key : Bytes32)
    (snap : SnapshotInfo) (s : Sys) : Tally :=
  let files := listFiles s.fs snap
  let total := (files.filterMap fun f => s.fs.statSize (splitPath f)).sum
  files.foldl (fileStep env dataDir job key (snapBase snap.snapshotPath))
    ⟨{ jobId := job.jobId, totalBytes := total, fileCount := files.length }, 0, s⟩

/-- The writes after the file loop: the key if the job encrypts, the counters, `COMPLETED`. -/
def finishWrites (env : Env) (job : BackupJob) (key : Bytes32) (t : Tally) : Sys :=
  let s := if job.encrypt then (t.sys.write env .storeEncryptionKey fun db ok =>
      db.storeEncryptionKey job.jobId (keyToHex key) ok).2
    else t.sys
  let s := (s.write env .updateJobStats fun db ok => db.updateJobStats job.jobId
    t.result.totalBytes t.processed t.result.storedBytes t.result.dedupSavings
    t.result.fileCount ok).2
  (s.write env .updateJobStatus fun db ok => db.updateJobStatus job.jobId .completed "" ok).2

/-- `execute` from its snapshot on: `snap` is the snapshot and the filesystem after it, `s` the
world after the `RUNNING` write. An inconsistent snapshot fails the job; otherwise the files are
stored, the key, counters and `COMPLETED` written, and the snapshot removed. -/
def fromSnapshot (env : Env) (dataDir : String) (job : BackupJob) (key : Bytes32)
    (snap : SnapshotInfo × Fs) (s : Sys) : Result × Sys :=
  let s := { s with fs := snap.2 }
  if !snap.1.isConsistent then
    let error := "Failed to create snapshot"
    let s := { s with failed := s.failed ++ [Call.createSnapshot] }
    ({ jobId := job.jobId, error },
      (s.write env .updateJobStatus fun db ok => db.updateJobStatus job.jobId .failed error ok).2)
  else
    let t := storeFiles env dataDir job key snap.1 s
    let s := finishWrites env job key t
    ({ t.result with success := true }, { s with fs := removeSnapshot s.fs snap.1 })

/-- `execute(job, aes_key)` in a process whose data directory is `dataDir`, at clock `now`. -/
def execute (env : Env) (dataDir : String) (now : Nat) (job : BackupJob) (key : Bytes32)
    (s : Sys) : Result × Sys :=
  let s := (s.write env .updateJobStatus fun db ok => db.updateJobStatus job.jobId .running "" ok).2
  fromSnapshot env dataDir job key
    (createSnapshot s.fs (snapshotsDir dataDir) job.jobId job.sourcePath now) s

/-- The state after `execute`'s `RUNNING` write. -/
abbrev running (env : Env) (job : BackupJob) (s : Sys) : Sys :=
  (s.write env .updateJobStatus fun db ok => db.updateJobStatus job.jobId .running "" ok).2

theorem execute_eq (env : Env) (dataDir : String) (now : Nat) (job : BackupJob) (key : Bytes32)
    (s : Sys) : execute env dataDir now job key s = fromSnapshot env dataDir job key
      (createSnapshot s.fs (snapshotsDir dataDir) job.jobId job.sourcePath now) (running env job s) :=
  rfl

theorem fromSnapshot_of_consistent (env : Env) (dataDir : String) (job : BackupJob)
    (key : Bytes32) {snap : SnapshotInfo × Fs} (s : Sys) (hc : snap.1.isConsistent = true) :
    fromSnapshot env dataDir job key snap s =
      let t := storeFiles env dataDir job key snap.1 { s with fs := snap.2 }
      ({ t.result with success := true },
        { finishWrites env job key t with fs := removeSnapshot (finishWrites env job key t).fs snap.1 }) := by
  simp [fromSnapshot, hc]

/-- A file that is a regular file is stored, its chunks tallied and its size added to
`processed`. -/
theorem fileStep_of_file (env : Env) (dataDir : String) (job : BackupJob) (key : Bytes32)
    (base : String) {t : Tally} {f : String} {i : Nat}
    (hf : t.sys.fs.lookup (splitPath f) = some (.file i)) :
    fileStep env dataDir job key base t f =
      let r := ChunkStore.storeFile env (storageDir dataDir) t.sys f job.compression job.encrypt key
        job.jobId (relPath base f)
      ⟨r.1.chunks.foldl (tally r.2.db) t.result, t.processed + r.1.fileSize, r.2⟩ := by
  simp only [fileStep, Fs.statSize, hf, Option.map_some']

/-! ### Where the worker writes -/

theorem splitPath_storageDir (dataDir : String) :
    splitPath (storageDir dataDir) = splitPath dataDir ++ ["storage"] := by
  have h : storageDir dataDir = dataDir ++ "/" ++ "storage" := by
    simp only [storageDir, String.append_assoc]; rfl
  rw [h, splitPath_append_slash]; rfl

theorem splitPath_snapshotDir (dataDir : String) (jobId : Int) (now : Nat) :
    splitPath (snapshotDir (snapshotsDir dataDir) jobId now) = splitPath dataDir ++ "snapshots" ::
      splitPath ("snap_" ++ toString jobId ++ "_" ++ toString now) := by
  have h : snapshotDir (snapshotsDir dataDir) jobId now = dataDir ++ "/" ++
      ("snapshots" ++ "/" ++ ("snap_" ++ toString jobId ++ "_" ++ toString now)) := by
    simp only [snapshotDir, snapshotsDir, String.append_assoc]; rfl
  rw [h, splitPath_append_slash, splitPath_append_slash]; rfl

/-- The chunk store and the snapshots are apart: neither directory is above the other. -/
theorem storage_apart_snapshot (dataDir : String) (jobId : Int) (now : Nat) :
    ¬ splitPath (storageDir dataDir) <+: splitPath (snapshotDir (snapshotsDir dataDir) jobId now) ∧
      ¬ splitPath (snapshotDir (snapshotsDir dataDir) jobId now) <+: splitPath (storageDir dataDir) := by
  rw [splitPath_storageDir, splitPath_snapshotDir]
  simp

theorem fromSnapshot_db_of_consistent (env : Env) (dataDir : String) (job : BackupJob)
    (key : Bytes32) {snap : SnapshotInfo × Fs} (s : Sys) (hc : snap.1.isConsistent = true) :
    (fromSnapshot env dataDir job key snap s).2.db =
      (finishWrites env job key (storeFiles env dataDir job key snap.1 { s with fs := snap.2 })).db := by
  rw [fromSnapshot_of_consistent env dataDir job key s hc]

theorem fromSnapshot_db_of_inconsistent (env : Env) (dataDir : String) (job : BackupJob)
    (key : Bytes32) {snap : SnapshotInfo × Fs} (s : Sys) (hc : snap.1.isConsistent = false) :
    (fromSnapshot env dataDir job key snap s).2.db =
      (s.db.updateJobStatus job.jobId .failed "Failed to create snapshot" (env.dbOk s.writes)).2 := by
  simp [fromSnapshot, hc]

/-- Only the snapshot decides `Result.success`. -/
theorem fromSnapshot_success (env : Env) (dataDir : String) (job : BackupJob) (key : Bytes32)
    (snap : SnapshotInfo × Fs) (s : Sys) :
    (fromSnapshot env dataDir job key snap s).1.success = snap.1.isConsistent := by
  unfold fromSnapshot
  split <;> simp_all

/-! ### Runs without a failed call -/

theorem prefix_failed_fileStep (env : Env) (dataDir : String) (job : BackupJob) (key : Bytes32)
    (base : String) (t : Tally) (f : String) :
    t.sys.failed <+: (fileStep env dataDir job key base t f).sys.failed := by
  dsimp only [fileStep]
  split
  · exact List.prefix_refl _
  · exact ChunkStore.prefix_failed_storeFile ..

theorem prefix_failed_finishWrites (env : Env) (job : BackupJob) (key : Bytes32) (t : Tally) :
    t.sys.failed <+: (finishWrites env job key t).failed := by
  unfold finishWrites
  split <;> dsimp only
  · exact ((Sys.prefix_failed_write ..).trans (Sys.prefix_failed_write ..)).trans
      (Sys.prefix_failed_write ..)
  · exact (Sys.prefix_failed_write ..).trans (Sys.prefix_failed_write ..)

theorem prefix_failed_storeFiles (env : Env) (dataDir : String) (job : BackupJob) (key : Bytes32)
    (snap : SnapshotInfo) (s : Sys) :
    s.failed <+: (storeFiles env dataDir job key snap s).sys.failed := by
  exact ChunkStore.foldl_rel (fun x y : Tally => x.sys.failed <+: y.sys.failed)
    (fun _ => List.prefix_refl _) (fun h h' => h.trans h') _ (prefix_failed_fileStep env dataDir job key _)
    _ ⟨_, 0, s⟩

theorem prefix_failed_fromSnapshot (env : Env) (dataDir : String) (job : BackupJob)
    (key : Bytes32) (snap : SnapshotInfo × Fs) (s : Sys) :
    s.failed <+: (fromSnapshot env dataDir job key snap s).2.failed := by
  by_cases hc : snap.1.isConsistent
  · rw [fromSnapshot_of_consistent env dataDir job key s hc]
    exact (prefix_failed_storeFiles env dataDir job key snap.1 { s with fs := snap.2 }).trans
      (prefix_failed_finishWrites ..)
  · simp only [fromSnapshot, hc, Bool.not_false, ↓reduceIte, Sys.failed_write]
    split <;> simp

/-- A run from the snapshot on without a failed call had a consistent snapshot, and neither
its file loop nor the writes after it failed. -/
theorem fromSnapshot_of_clean {env : Env} {dataDir : String} {job : BackupJob} {key : Bytes32}
    {snap : SnapshotInfo × Fs} {s : Sys}
    (h : (fromSnapshot env dataDir job key snap s).2.failed = s.failed) :
    snap.1.isConsistent = true ∧
      (storeFiles env dataDir job key snap.1 { s with fs := snap.2 }).sys.failed = s.failed ∧
      (finishWrites env job key (storeFiles env dataDir job key snap.1 { s with fs := snap.2 })).failed =
        s.failed := by
  have hc : snap.1.isConsistent = true := by
    by_contra hc
    simp only [fromSnapshot, hc, Bool.not_false, ↓reduceIte, Sys.failed_write] at h
    split at h <;> simp at h
  rw [fromSnapshot_of_consistent env dataDir job key s hc] at h
  exact ⟨hc, ChunkStore.prefix_squeeze
    (prefix_failed_storeFiles env dataDir job key snap.1 { s with fs := snap.2 })
    (prefix_failed_finishWrites ..) h, h⟩

/-- A run of `execute` without a failed call: the `RUNNING` write goes through, and the rest
of the run adds no failed call. -/
theorem execute_of_clean {env : Env} {dataDir : String} {now : Nat} {job : BackupJob}
    {key : Bytes32} {s : Sys} (h : (execute env dataDir now job key s).2.failed = s.failed) :
    env.dbOk s.writes = true ∧
      (fromSnapshot env dataDir job key
        (createSnapshot s.fs (snapshotsDir dataDir) job.jobId job.sourcePath now)
        (running env job s)).2.failed = (running env job s).failed := by
  have h₁ := Sys.prefix_failed_write s env .updateJobStatus fun db ok =>
    db.updateJobStatus job.jobId .running "" ok
  have h₂ := prefix_failed_fromSnapshot env dataDir job key
    (createSnapshot s.fs (snapshotsDir dataDir) job.jobId job.sourcePath now) (running env job s)
  have e₁ := ChunkStore.prefix_squeeze h₁ h₂ h
  refine ⟨?_, h.trans e₁.symm⟩
  by_contra hok
  simp [Sys.failed_write, Db.updateJobStatus, hok] at e₁

/-- After the writes that follow the file loop, when none of them failed, the job's row holds
the loop's counters and `COMPLETED`. -/
theorem finishWrites_row {env : Env} {job : BackupJob} {key : Bytes32} {t : Tally} {J : BackupJob}
    (hrow : t.sys.db.jobs job.jobId = some J)
    (hc : (finishWrites env job key t).failed = t.sys.failed) :
    (finishWrites env job key t).db.jobs job.jobId = some (Db.setStatus
      (Db.setStats J t.result.totalBytes t.processed t.result.storedBytes t.result.dedupSavings
        t.result.fileCount) .completed "") := by
  unfold finishWrites at hc ⊢
  generalize hs₁ : (if job.encrypt then (t.sys.write env .storeEncryptionKey fun db ok =>
      db.storeEncryptionKey job.jobId (keyToHex key) ok).2 else t.sys) = s₁ at hc ⊢
  have h₁ : t.sys.failed <+: s₁.failed := by
    rw [← hs₁]; split
    · exact Sys.prefix_failed_write ..
    · exact List.prefix_refl _
  have hj : s₁.db.jobs = t.sys.db.jobs := by rw [← hs₁]; split <;> simp
  have e₂ := ChunkStore.prefix_squeeze (h₁.trans (Sys.prefix_failed_write ..))
    (Sys.prefix_failed_write ..) hc
  have e₁ := ChunkStore.prefix_squeeze h₁ (Sys.prefix_failed_write ..) e₂
  have ok₂ := Sys.ok_of_failed_write (e₂.trans e₁.symm)
  have ok₃ := Sys.ok_of_failed_write (hc.trans e₂.symm)
  simp only [Db.updateJobStats_fst, Db.updateJobStatus_fst, Sys.write_db, Sys.write_writes] at ok₂ ok₃
  simp [Db.updateJobStatus_jobs, Db.updateJobStats_jobs, ok₂, ok₃, hj, hrow]

/-! ### The jobs table: `execute` is a `WorkerRun` -/

theorem sameJobs_fileStep (env : Env) (dataDir : String) (job : BackupJob) (key : Bytes32)
    (base : String) (t : Tally) (f : String) :
    ChunkStore.SameJobs t.sys.db (fileStep env dataDir job key base t f).sys.db := by
  dsimp only [fileStep]
  split
  · exact ⟨rfl, rfl⟩
  · exact ChunkStore.sameJobs_storeFile ..

theorem sameJobs_storeFiles (env : Env) (dataDir : String) (job : BackupJob) (key : Bytes32)
    (snap : SnapshotInfo) (s : Sys) :
    ChunkStore.SameJobs s.db (storeFiles env dataDir job key snap s).sys.db :=
  ChunkStore.foldl_rel (fun x y : Tally => ChunkStore.SameJobs x.sys.db y.sys.db)
    (fun _ => ⟨rfl, rfl⟩) (fun h h' => h.trans h') _ (sameJobs_fileStep env dataDir job key _) _ _

/-- The writes after the loop change the jobs table as the counters and `COMPLETED` do. -/
theorem finishWrites_jobs (env : Env) (job : BackupJob) (key : Bytes32) (t : Tally) :
    ∃ ok₂ ok₃, (finishWrites env job key t).db.jobs =
      ((t.sys.db.updateJobStats job.jobId t.result.totalBytes t.processed t.result.storedBytes
        t.result.dedupSavings t.result.fileCount ok₂).2.updateJobStatus job.jobId .completed ""
          ok₃).2.jobs := by
  unfold finishWrites
  split
  · refine ⟨env.dbOk (t.sys.writes + 1), env.dbOk (t.sys.writes + 1 + 1), funext fun i => ?_⟩
    simp only [Sys.write_db, Sys.write_writes, Db.updateJobStatus_jobs, Db.updateJobStats_jobs,
      Db.storeEncryptionKey_jobs]
  · refine ⟨env.dbOk t.sys.writes, env.dbOk (t.sys.writes + 1), funext fun i => ?_⟩
    simp only [Sys.write_db, Sys.write_writes, Db.updateJobStatus_jobs, Db.updateJobStats_jobs]

@[simp] theorem finishWrites_chunks (env : Env) (job : BackupJob) (key : Bytes32) (t : Tally) :
    (finishWrites env job key t).db.chunks = t.sys.db.chunks := by
  unfold finishWrites; split <;> simp

@[simp] theorem finishWrites_fileChunks (env : Env) (job : BackupJob) (key : Bytes32) (t : Tally) :
    (finishWrites env job key t).db.fileChunks = t.sys.db.fileChunks := by
  unfold finishWrites; split <;> simp

theorem finishWrites_nextJobId (env : Env) (job : BackupJob) (key : Bytes32) (t : Tally) :
    (finishWrites env job key t).db.nextJobId = t.sys.db.nextJobId := by
  simp only [finishWrites]
  split <;> simp

/-- The last two writes of a completed run act on the jobs table alone. -/
theorem completedWrites_jobs {d₁ d₂ : Db} (h : d₁.jobs = d₂.jobs) (id : Int) (t p st dd f : Nat)
    (ok₂ ok₃ : Bool) :
    ((d₁.updateJobStats id t p st dd f ok₂).2.updateJobStatus id .completed "" ok₃).2.jobs =
      ((d₂.updateJobStats id t p st dd f ok₂).2.updateJobStatus id .completed "" ok₃).2.jobs := by
  funext i
  simp only [Db.updateJobStatus_jobs, Db.updateJobStats_jobs, h]

/-- The writes of a run whose snapshot is consistent, from the world after `RUNNING`. -/
theorem workerRun_finish (env : Env) (dataDir : String) (job : BackupJob) (key : Bytes32)
    (snap : SnapshotInfo) {s s' : Sys} {ok₁ : Bool}
    (hs : s'.db = (s.db.updateJobStatus job.jobId .running "" ok₁).2) :
    WorkerRun job.jobId s.db (finishWrites env job key (storeFiles env dataDir job key snap s')).db
      true := by
  have hj := sameJobs_storeFiles env dataDir job key snap s'
  generalize storeFiles env dataDir job key snap s' = t at hj ⊢
  obtain ⟨ok₂, ok₃, h⟩ := finishWrites_jobs env job key t
  refine ⟨by rw [finishWrites_nextJobId, hj.2, hs]; simp, ok₁, ok₂, ok₃, t.result.totalBytes,
    t.processed, t.result.storedBytes, t.result.dedupSavings, t.result.fileCount, h.trans ?_⟩
  simp only [workerWrites, ↓reduceIte, ← hs]
  exact completedWrites_jobs hj.1 _ _ _ _ _ _ _ _

/-- `execute` changes the jobs table as `workerWrites` says, with `Result.success` as the
snapshot's consistency: it is a run of the worker as the orchestrator loops model it. -/
theorem execute_workerRun (env : Env) (dataDir : String) (now : Nat) (job : BackupJob)
    (key : Bytes32) (s : Sys) :
    WorkerRun job.jobId s.db (execute env dataDir now job key s).2.db
      (execute env dataDir now job key s).1.success := by
  rw [execute_eq, fromSnapshot_success]
  cases hc : (createSnapshot s.fs (snapshotsDir dataDir) job.jobId job.sourcePath now).1.isConsistent
  · rw [fromSnapshot_db_of_inconsistent _ _ _ _ _ hc]
    exact ⟨by simp, _, _, true, 0, 0, 0, 0, 0, rfl⟩
  · rw [fromSnapshot_db_of_consistent _ _ _ _ _ hc]
    exact workerRun_finish env dataDir job key _ rfl

end Worker

end FileBackup
