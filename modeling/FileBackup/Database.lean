import FileBackup.Basic

/-!
# The metadata store (`storage/database.h`)

The SQLite tables as Lean data and each `Database` operation as a function on them. A write
takes `ok : Bool`, whether its statements run (`false`: a failed prepare or step, or a busy
database after the retries): a failed write returns `false` and leaves every table as it was,
since each multi-statement write runs in one transaction that is rolled back unless committed.
Reads are modelled as succeeding. Foreign keys are on (`PRAGMA foreign_keys=ON`), so a row that
names a missing job is refused.

* `jobs` (with the `AUTOINCREMENT` counter), `chunks`, `file_manifests`, `file_chunks`,
  `encryption_keys`;
* `createJob`, `updateJobStatus`, `updateJobStats`, `getJob`, `getJobsByStatus`;
* `storeChunk` (insert or increment), `chunkExists`, `getChunkPath`, `getChunkMeta`;
* `storeFileManifest`, `getFileManifests` (chunks sorted by `chunk_index`), `storeEncryptionKey`,
  `getEncryptionKey`.

`job_dependencies`, written by `add_dependency` and read by no modelled function, and the
messaging tables are left out.
-/

namespace FileBackup

/-- A row of `chunks`. -/
structure ChunkRow where
  hash : String
  storagePath : String
  originalSize : Nat
  storedSize : Nat
  compression : CompressionType
  encrypted : Bool
  refCount : Nat
  deriving DecidableEq, Repr

/-- A row of `file_manifests`. -/
structure ManifestRow where
  manifestId : Nat
  jobId : Int
  filePath : String
  fileName : String
  fileSize : Nat
  modifiedTime : Nat
  fileHash : String
  deriving DecidableEq, Repr

/-- A row of `file_chunks`. -/
structure FileChunkRow where
  manifestId : Nat
  chunkHash : String
  chunkIndex : Nat
  offset : Nat
  size : Nat
  deduplicated : Bool
  deriving DecidableEq, Repr

/-- The tables. `jobs` maps an id to its row (`row_to_job`); ids `1, …, nextJobId - 1` have
been handed out. -/
structure Db where
  jobs : Int → Option BackupJob
  nextJobId : Nat
  chunks : String → Option ChunkRow
  manifests : List ManifestRow
  fileChunks : List FileChunkRow
  nextManifestId : Nat
  keys : Int → Option String

namespace Db

/-- A fresh database (`create_tables`). -/
def empty : Db := ⟨fun _ => none, 1, fun _ => none, [], [], 1, fun _ => none⟩

/-! ### Jobs -/

/-- `create_job`: the next `AUTOINCREMENT` id, or `-1` when the insert fails. The stored
`created_at` is the clock `now`. -/
def createJob (db : Db) (job : BackupJob) (now : Nat) (ok : Bool) : Int × Db :=
  if ok then
    let id : Int := db.nextJobId
    (id, { db with
      jobs := Function.update db.jobs id
        (some { job with jobId := id, createdAt := now, dependencies := [] }),
      nextJobId := db.nextJobId + 1 })
  else (-1, db)

/-- The row change of `update_job_status`: `error_message` is written only together with
`COMPLETED` or `FAILED`; for `PENDING` and `CANCELLED` only the status is set. -/
def setStatus (job : BackupJob) (status : JobStatus) (error : String) : BackupJob :=
  if status = .completed ∨ status = .failed then { job with status, errorMessage := error }
  else { job with status }

/-- `UPDATE jobs SET … WHERE job_id = id`: change the row `id`, if there is one. -/
def updateRow (db : Db) (id : Int) (f : BackupJob → BackupJob) : Db :=
  { db with jobs := fun i => if i = id then (db.jobs i).map f else db.jobs i }

/-- `update_job_status(job_id, status, error)`. -/
def updateJobStatus (db : Db) (id : Int) (status : JobStatus) (error : String := "")
    (ok : Bool) : Bool × Db :=
  if ok then (true, db.updateRow id (setStatus · status error)) else (false, db)

/-- The row change of `update_job_stats`. -/
def setStats (job : BackupJob) (total processed stored dedup files : Nat) : BackupJob :=
  { job with
    totalBytes := total
    processedBytes := processed
    storedBytes := stored
    dedupSavings := dedup
    fileCount := files }

/-- `update_job_stats`. -/
def updateJobStats (db : Db) (id : Int) (total processed stored dedup files : Nat)
    (ok : Bool) : Bool × Db :=
  if ok then (true, db.updateRow id (setStats · total processed stored dedup files))
  else (false, db)

/-- `get_job`. -/
def getJob (db : Db) (id : Int) : Option BackupJob := db.jobs id

/-- `get_jobs_by_status`: the rows with that status (by id; the code's `ORDER BY` is not read
by any caller). -/
def getJobsByStatus (db : Db) (status : JobStatus) : List BackupJob :=
  ((List.range (db.nextJobId - 1)).filterMap fun k : Nat => db.jobs ((k : Int) + 1)).filter
    (·.status = status)

@[simp] theorem updateJobStatus_nextJobId (db : Db) (id : Int) (s : JobStatus) (e : String)
    (ok : Bool) : (db.updateJobStatus id s e ok).2.nextJobId = db.nextJobId := by
  unfold updateJobStatus; split <;> rfl

@[simp] theorem updateJobStats_nextJobId (db : Db) (id : Int) (t p st d f : Nat) (ok : Bool) :
    (db.updateJobStats id t p st d f ok).2.nextJobId = db.nextJobId := by
  unfold updateJobStats; split <;> rfl

theorem updateJobStatus_jobs (db : Db) (id : Int) (s : JobStatus) (e : String) (ok : Bool)
    (i : Int) : (db.updateJobStatus id s e ok).2.jobs i =
      if ok ∧ i = id then (db.jobs i).map (setStatus · s e) else db.jobs i := by
  unfold updateJobStatus updateRow; by_cases ok <;> by_cases i = id <;> simp_all

theorem updateJobStats_jobs (db : Db) (id : Int) (t p st d f : Nat) (ok : Bool) (i : Int) :
    (db.updateJobStats id t p st d f ok).2.jobs i =
      if ok ∧ i = id then (db.jobs i).map (setStats · t p st d f) else db.jobs i := by
  unfold updateJobStats updateRow; by_cases ok <;> by_cases i = id <;> simp_all

@[simp] theorem setStatus_status (job : BackupJob) (s : JobStatus) (e : String) :
    (setStatus job s e).status = s := by
  unfold setStatus; split <;> rfl

@[simp] theorem setStatus_jobId (job : BackupJob) (s : JobStatus) (e : String) :
    (setStatus job s e).jobId = job.jobId := by
  unfold setStatus; split <;> rfl

@[simp] theorem updateJobStatus_fst (db : Db) (id : Int) (s : JobStatus) (e : String) (ok : Bool) :
    (db.updateJobStatus id s e ok).1 = ok := by
  unfold updateJobStatus; split <;> simp_all

@[simp] theorem updateJobStats_fst (db : Db) (id : Int) (t p st d f : Nat) (ok : Bool) :
    (db.updateJobStats id t p st d f ok).1 = ok := by
  unfold updateJobStats; split <;> simp_all

/-- The counters of a row are what `update_job_stats` last wrote; `update_job_status` keeps
them. -/
@[simp] theorem setStatus_counters (job : BackupJob) (s : JobStatus) (e : String) :
    (setStatus job s e).totalBytes = job.totalBytes ∧
      (setStatus job s e).processedBytes = job.processedBytes ∧
      (setStatus job s e).storedBytes = job.storedBytes ∧
      (setStatus job s e).dedupSavings = job.dedupSavings := by
  unfold setStatus; split <;> simp

/-! ### The status column -/

/-- The status of row `id`, if there is a row. -/
def status (db : Db) (id : Int) : Option JobStatus := (db.jobs id).map (·.status)

@[simp] theorem status_updateJobStatus (db : Db) (id : Int) (s : JobStatus) (e : String)
    (ok : Bool) (i : Int) : (db.updateJobStatus id s e ok).2.status i =
      if ok ∧ i = id then (db.status i).map fun _ => s else db.status i := by
  unfold status; rw [updateJobStatus_jobs]; split <;> simp [Option.map_map, Function.comp_def]

@[simp] theorem status_updateJobStats (db : Db) (id : Int) (t p st d f : Nat) (ok : Bool)
    (i : Int) : (db.updateJobStats id t p st d f ok).2.status i = db.status i := by
  unfold status updateJobStats updateRow; split
  · dsimp only; split <;> simp [Option.map_map, Function.comp_def, setStats]
  · rfl

theorem status_createJob (db : Db) (job : BackupJob) (now : Nat) (ok : Bool) (i : Int) :
    (db.createJob job now ok).2.status i =
      if ok ∧ i = db.nextJobId then some job.status else db.status i := by
  unfold status createJob
  by_cases hok : ok
  · by_cases hi : i = db.nextJobId
    · subst hi; simp [hok]
    · simp [hok, hi, Function.update_noteq hi]
  · simp [hok]

/-- The rows with status `s`, as `get_jobs_by_status` lists them. -/
theorem mem_getJobsByStatus {db : Db} {s : JobStatus} {J : BackupJob} :
    J ∈ db.getJobsByStatus s ↔
      ∃ k < db.nextJobId - 1, db.jobs ((k : Int) + 1) = some J ∧ J.status = s := by
  simp only [getJobsByStatus, List.mem_filter, List.mem_filterMap, List.mem_range,
    decide_eq_true_eq]
  constructor
  · rintro ⟨⟨k, hk, hJ⟩, hs⟩; exact ⟨k, hk, hJ, hs⟩
  · rintro ⟨k, hk, hJ, hs⟩; exact ⟨⟨k, hk, hJ⟩, hs⟩

/-! ### Row ids -/

/-- Every row's key is an id `create_job` handed out: from `1` up to the next one. -/
structure IdsBelow (db : Db) : Prop where
  next_pos : 1 ≤ db.nextJobId
  below : ∀ i, db.jobs i ≠ none → 1 ≤ i ∧ i < db.nextJobId

theorem idsBelow_empty : empty.IdsBelow := ⟨le_rfl, fun _ h => absurd rfl h⟩

/-- A row below the next id is listed by `get_jobs_by_status` of its status. -/
theorem IdsBelow.mem_getJobsByStatus {db : Db} (h : db.IdsBelow) {i : Int} {J : BackupJob}
    (hJ : db.jobs i = some J) : J ∈ db.getJobsByStatus J.status := by
  obtain ⟨h1, h2⟩ := h.below i (by simp [hJ])
  refine Db.mem_getJobsByStatus.2 ⟨(i - 1).toNat, by omega, ?_, rfl⟩
  rwa [Int.toNat_of_nonneg (by omega), sub_add_cancel]

theorem IdsBelow.updateRow {db : Db} (h : db.IdsBelow) (id : Int) (f : BackupJob → BackupJob) :
    (db.updateRow id f).IdsBelow :=
  ⟨h.next_pos, fun i hi => h.below i fun e => hi (by simp [Db.updateRow, e])⟩

theorem IdsBelow.updateJobStatus {db : Db} (h : db.IdsBelow) (id : Int) (s : JobStatus)
    (e : String) (ok : Bool) : (db.updateJobStatus id s e ok).2.IdsBelow := by
  unfold Db.updateJobStatus; split
  · exact h.updateRow _ _
  · exact h

theorem IdsBelow.updateJobStats {db : Db} (h : db.IdsBelow) (id : Int) (t p st d f : Nat)
    (ok : Bool) : (db.updateJobStats id t p st d f ok).2.IdsBelow := by
  unfold Db.updateJobStats; split
  · exact h.updateRow _ _
  · exact h

theorem IdsBelow.createJob {db : Db} (h : db.IdsBelow) (job : BackupJob) (now : Nat) (ok : Bool) :
    (db.createJob job now ok).2.IdsBelow := by
  unfold Db.createJob; split
  · refine ⟨by simp, fun i hi => ?_⟩
    dsimp only at hi ⊢
    have := h.next_pos
    by_cases hin : i = db.nextJobId
    · omega
    · rw [Function.update_noteq hin] at hi; have := h.below i hi; omega
  · exact h

/-- Every row of `jobs` carries its own id (`row_to_job` reads `job_id` from the row). -/
def RowIds (db : Db) : Prop := ∀ i j, db.jobs i = some j → j.jobId = i

theorem rowIds_empty : empty.RowIds := fun _ _ h => by cases h

theorem RowIds.updateRow {db : Db} (h : db.RowIds) (id : Int) {f : BackupJob → BackupJob}
    (hf : ∀ j, (f j).jobId = j.jobId) : (db.updateRow id f).RowIds := by
  intro i j hj
  simp only [Db.updateRow] at hj
  split at hj
  · obtain ⟨j', hj', rfl⟩ := Option.map_eq_some'.1 hj
    rw [hf]; exact h i j' hj'
  · exact h i j hj

theorem RowIds.updateJobStatus {db : Db} (h : db.RowIds) (id : Int) (s : JobStatus) (e : String)
    (ok : Bool) : (db.updateJobStatus id s e ok).2.RowIds := by
  unfold Db.updateJobStatus; split
  · exact h.updateRow id fun j => setStatus_jobId j s e
  · exact h

theorem RowIds.updateJobStats {db : Db} (h : db.RowIds) (id : Int) (t p st d f : Nat)
    (ok : Bool) : (db.updateJobStats id t p st d f ok).2.RowIds := by
  unfold Db.updateJobStats; split
  · exact h.updateRow id fun _ => rfl
  · exact h

theorem RowIds.createJob {db : Db} (h : db.RowIds) (job : BackupJob) (now : Nat) (ok : Bool) :
    (db.createJob job now ok).2.RowIds := by
  unfold Db.createJob; split
  · intro i j hj
    dsimp only at hj
    by_cases hi : i = db.nextJobId
    · subst hi; simp only [Function.update_same, Option.some.injEq] at hj; rw [← hj]
    · rw [Function.update_noteq hi] at hj; exact h i j hj
  · exact h

/-! ### Chunks, manifests and keys -/

/-- `store_chunk`: in one transaction, `INSERT OR IGNORE` the row with `ref_count = 1`, and when
the hash was already there, add one to its `ref_count`. -/
def storeChunk (db : Db) (hash storagePath : String) (originalSize storedSize : Nat)
    (compression : CompressionType) (encrypted : Bool) (ok : Bool) : Bool × Db :=
  if ok then
    (true, { db with chunks := Function.update db.chunks hash (some (match db.chunks hash with
      | some row => { row with refCount := row.refCount + 1 }
      | none => ⟨hash, storagePath, originalSize, storedSize, compression, encrypted, 1⟩)) })
  else (false, db)

/-- `chunk_exists`. -/
def chunkExists (db : Db) (hash : String) : Bool := (db.chunks hash).isSome

/-- `get_chunk_path`: the row's `storage_path`, `""` when there is no row. -/
def getChunkPath (db : Db) (hash : String) : String := ((db.chunks hash).map (·.storagePath)).getD ""

/-- `get_chunk_meta`. -/
def getChunkMeta (db : Db) (hash : String) : Option ChunkRow := db.chunks hash

/-- A non-empty `get_chunk_path` is the `storage_path` of the row `get_chunk_meta` finds. -/
theorem exists_row_of_getChunkPath {db : Db} {hash : String} (h : db.getChunkPath hash ≠ "") :
    ∃ row, db.getChunkMeta hash = some row ∧ db.getChunkPath hash = row.storagePath := by
  unfold getChunkPath at h ⊢
  cases hc : db.chunks hash with
  | none => rw [hc] at h; exact absurd rfl h
  | some row => exact ⟨row, hc, rfl⟩

/-- `store_file_manifest`: in one transaction, the header row (whose `job_id` must name a job)
and one `file_chunks` row per chunk, in the manifest's order. -/
def storeFileManifest (db : Db) (jobId : Int) (m : FileManifest) (ok : Bool) : Bool × Db :=
  if ok ∧ (db.jobs jobId).isSome then
    let id := db.nextManifestId
    (true, { db with
      manifests := db.manifests ++
        [⟨id, jobId, m.filePath, m.fileName, m.fileSize, m.modifiedTime, m.fileHash⟩]
      fileChunks := db.fileChunks ++ m.chunks.map fun c =>
        ⟨id, c.hash, c.chunkIndex, c.offset, c.size, c.deduplicated⟩
      nextManifestId := id + 1 })
  else (false, db)

/-- The `file_chunks` rows of one manifest as `ChunkInfo`s, `ORDER BY chunk_index`. -/
def chunksOf (db : Db) (manifestId : Nat) : List ChunkInfo :=
  ((db.fileChunks.filter (·.manifestId = manifestId)).insertionSort
    (fun a b : FileChunkRow => a.chunkIndex ≤ b.chunkIndex)).map fun c =>
      { hash := c.chunkHash, offset := c.offset, size := c.size, chunkIndex := c.chunkIndex,
        deduplicated := c.deduplicated }

/-- `get_file_manifests`: the job's manifests in insertion order, each with its chunks. -/
def getFileManifests (db : Db) (jobId : Int) : List FileManifest :=
  (db.manifests.filter (·.jobId = jobId)).map fun r =>
    { filePath := r.filePath, fileName := r.fileName, fileSize := r.fileSize,
      modifiedTime := r.modifiedTime, fileHash := r.fileHash, chunks := db.chunksOf r.manifestId }

/-- `store_encryption_key`: `INSERT OR REPLACE`; the `job_id` must name a job. -/
def storeEncryptionKey (db : Db) (jobId : Int) (keyHex : String) (ok : Bool) : Bool × Db :=
  if ok ∧ (db.jobs jobId).isSome then
    (true, { db with keys := Function.update db.keys jobId (some keyHex) })
  else (false, db)

/-- `get_encryption_key`: `""` when there is none. -/
def getEncryptionKey (db : Db) (jobId : Int) : String := (db.keys jobId).getD ""

@[simp] theorem storeChunk_jobs (db : Db) (h p : String) (o s : Nat) (c : CompressionType)
    (e ok : Bool) : (db.storeChunk h p o s c e ok).2.jobs = db.jobs := by
  unfold storeChunk; split <;> rfl

@[simp] theorem storeChunk_nextJobId (db : Db) (h p : String) (o s : Nat) (c : CompressionType)
    (e ok : Bool) : (db.storeChunk h p o s c e ok).2.nextJobId = db.nextJobId := by
  unfold storeChunk; split <;> rfl

@[simp] theorem storeFileManifest_jobs (db : Db) (id : Int) (m : FileManifest) (ok : Bool) :
    (db.storeFileManifest id m ok).2.jobs = db.jobs := by
  unfold storeFileManifest; split <;> rfl

@[simp] theorem storeFileManifest_nextJobId (db : Db) (id : Int) (m : FileManifest) (ok : Bool) :
    (db.storeFileManifest id m ok).2.nextJobId = db.nextJobId := by
  unfold storeFileManifest; split <;> rfl

@[simp] theorem storeFileManifest_chunks (db : Db) (id : Int) (m : FileManifest) (ok : Bool) :
    (db.storeFileManifest id m ok).2.chunks = db.chunks := by
  unfold storeFileManifest; split <;> rfl

@[simp] theorem storeEncryptionKey_jobs (db : Db) (id : Int) (k : String) (ok : Bool) :
    (db.storeEncryptionKey id k ok).2.jobs = db.jobs := by
  unfold storeEncryptionKey; split <;> rfl

@[simp] theorem storeEncryptionKey_nextJobId (db : Db) (id : Int) (k : String) (ok : Bool) :
    (db.storeEncryptionKey id k ok).2.nextJobId = db.nextJobId := by
  unfold storeEncryptionKey; split <;> rfl

@[simp] theorem storeEncryptionKey_chunks (db : Db) (id : Int) (k : String) (ok : Bool) :
    (db.storeEncryptionKey id k ok).2.chunks = db.chunks := by
  unfold storeEncryptionKey; split <;> rfl

@[simp] theorem updateJobStatus_chunks (db : Db) (id : Int) (s : JobStatus) (e : String)
    (ok : Bool) : (db.updateJobStatus id s e ok).2.chunks = db.chunks := by
  unfold updateJobStatus; split <;> rfl

@[simp] theorem updateJobStats_chunks (db : Db) (id : Int) (t p st d f : Nat) (ok : Bool) :
    (db.updateJobStats id t p st d f ok).2.chunks = db.chunks := by
  unfold updateJobStats; split <;> rfl

/-- `store_chunk` adds a row for its hash when it goes through, and removes none. -/
@[simp] theorem chunkExists_storeChunk (db : Db) (hash p : String) (o s : Nat)
    (c : CompressionType) (e ok : Bool) (h : String) :
    (db.storeChunk hash p o s c e ok).2.chunkExists h = (db.chunkExists h || (ok && h == hash)) := by
  unfold storeChunk chunkExists
  by_cases hh : h = hash
  · subst hh; cases ok <;> simp
  · cases ok <;> simp [Function.update_noteq hh, hh]

@[simp] theorem storeChunk_fileChunks (db : Db) (h p : String) (o s : Nat) (c : CompressionType)
    (e ok : Bool) : (db.storeChunk h p o s c e ok).2.fileChunks = db.fileChunks := by
  unfold storeChunk; split <;> rfl

@[simp] theorem storeEncryptionKey_fileChunks (db : Db) (id : Int) (k : String) (ok : Bool) :
    (db.storeEncryptionKey id k ok).2.fileChunks = db.fileChunks := by
  unfold storeEncryptionKey; split <;> rfl

@[simp] theorem updateJobStatus_fileChunks (db : Db) (id : Int) (s : JobStatus) (e : String)
    (ok : Bool) : (db.updateJobStatus id s e ok).2.fileChunks = db.fileChunks := by
  unfold updateJobStatus; split <;> rfl

@[simp] theorem updateJobStats_fileChunks (db : Db) (id : Int) (t p st d f : Nat) (ok : Bool) :
    (db.updateJobStats id t p st d f ok).2.fileChunks = db.fileChunks := by
  unfold updateJobStats; split <;> rfl

@[simp] theorem createJob_chunks (db : Db) (job : BackupJob) (now : Nat) (ok : Bool) :
    (db.createJob job now ok).2.chunks = db.chunks := by
  unfold createJob; split <;> rfl

@[simp] theorem createJob_fileChunks (db : Db) (job : BackupJob) (now : Nat) (ok : Bool) :
    (db.createJob job now ok).2.fileChunks = db.fileChunks := by
  unfold createJob; split <;> rfl

end Db

end FileBackup
