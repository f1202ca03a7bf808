import FileBackup.Worker

/-!
# The restore engine (`restore/restore_engine.h`)

`RestoreEngine::restore_job` checks that the job is `COMPLETED`, reads its key when it encrypts,
and restores each of its manifests to `dest/<file_path>` with `ChunkStore::restore_file`, going on
after a file that fails. It reports success when at least one file was restored, or when the job
has no manifest. The chunk store's cache `chunk_index_` is a parameter (`ChunkStore.ChunkIndex`).

* `RestoreResult`, `restoreStep` (one manifest), `restoreJob`; `restoreJob_of_no_key`: a job
  that encrypts and whose key is missing is not restored, whatever the cache holds.
* `verifyBackup`: a `COMPLETED` job each of whose chunks has a row whose file `stat` finds.

`list_restorable` reads `get_all_jobs`, which no modelled function uses; it is left out.
-/

namespace FileBackup

/-- `RestoreEngine::RestoreResult`. -/
structure RestoreResult where
  success : Bool := false
  filesRestored : Nat := 0
  bytesRestored : Nat := 0
  error : String := ""
  restoredFiles : List String := []
  deriving DecidableEq, Repr

namespace RestoreEngine

/-- One manifest of `restore_job`'s loop: make the target's directory, restore the file with the
job's compression and encryption, and count it, or record the error and go on. -/
def restoreStep (c : Codec) (index : ChunkStore.ChunkIndex) (db : Db) (job : BackupJob)
    (key : Bytes32) (destPath : String) (acc : RestoreResult × Fs) (m : FileManifest) :
    RestoreResult × Fs :=
  let target := destPath ++ "/" ++ m.filePath
  let r := ChunkStore.restoreFile c index db (acc.2.mkdirPath (dirnameOf target)) m target
    job.compression job.encrypt key
  if r.1 then
    ({ acc.1 with
        filesRestored := acc.1.filesRestored + 1
        bytesRestored := acc.1.bytesRestored + m.fileSize
        restoredFiles := acc.1.restoredFiles ++ [target] }, r.2)
  else ({ acc.1 with error := "Failed to restore: " ++ m.fileName }, r.2)

/-- `restore_job(job_id, dest_path)`. -/
def restoreJob (c : Codec) (index : ChunkStore.ChunkIndex) (db : Db) (fs : Fs) (jobId : Int)
    (destPath : String) : RestoreResult × Fs :=
  match db.getJob jobId with
  | none => ({ error := "Job not found: " ++ toString jobId }, fs)
  | some job =>
    if job.status ≠ .completed then
      ({ error := "Job " ++ toString jobId ++ " is not completed (status: " ++ job.status.str ++
          ")" }, fs)
    else if job.encrypt ∧ db.getEncryptionKey jobId = "" then
      ({ error := "Encryption key not found for job " ++ toString jobId }, fs)
    else
      let key := if job.encrypt then keyFromHex (db.getEncryptionKey jobId) else Bytes32.zero
      let manifests := db.getFileManifests jobId
      if manifests.isEmpty then
        ({ success := true, error := "No files found in backup job " ++ toString jobId }, fs)
      else
        let r := manifests.foldl (restoreStep c index db job key destPath) ({}, fs.mkdirPath destPath)
        ({ r.1 with success := decide (0 < r.1.filesRestored) }, r.2)

/-- A job that encrypts and whose key is not stored is not restored, whatever the cache holds. -/
theorem restoreJob_of_no_key {c : Codec} {index : ChunkStore.ChunkIndex} {db : Db} {fs : Fs}
    {jobId : Int} {dest : String} {J : BackupJob} (hj : db.getJob jobId = some J)
    (he : J.encrypt = true) (hk : db.getEncryptionKey jobId = "") :
    (restoreJob c index db fs jobId dest).1.success = false := by
  unfold restoreJob
  by_cases hs : J.status = .completed <;> simp [hj, hs, he, hk]

/-- `verify_backup(job_id)`: the job is `COMPLETED`, and every chunk of each of its manifests
has a row (`get_chunk_meta`) whose `storage_path` `stat` finds. `stat` of `""` fails. -/
def verifyBackup (db : Db) (fs : Fs) (jobId : Int) : Bool :=
  match db.getJob jobId with
  | none => false
  | some job =>
    if job.status ≠ .completed then false
    else (db.getFileManifests jobId).all fun m => m.chunks.all fun ci =>
      match db.getChunkMeta ci.hash with
      | none => false
      | some meta => meta.storagePath != "" && (fs.lookup (splitPath meta.storagePath)).isSome

end RestoreEngine

end FileBackup
