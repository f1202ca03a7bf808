import FileBackup.Restore

/-!
# Failed metadata writes

`BackupWorker::execute` looks at the result of no metadata write, and `store_file` ignores
those of `store_chunk` and `store_file_manifest`: `Result.success`, and with it the exit code a
forked child reports, is the snapshot's consistency alone (`Worker.fromSnapshot_success`). A job whose chunks,
manifests, key and counters all fail to be recorded so ends `COMPLETED` with success, and cannot
be restored (`metadata_failure_completes`).
-/

namespace FileBackup

/-- A source directory `/data` holding one file `/data/a` of one byte. -/
def oneFileFs : Fs := ⟨.dir [("data", .dir [("a", .file 0)])], fun _ => [7], 1⟩

/-- Job `1`, submitted with the defaults (LZ4, encrypted), over `/data`. -/
def oneFileJob : BackupJob := { jobId := 1, sourcePath := "/data", backupName := "nightly" }

/-- A worker whose metadata writes fail but the first (`RUNNING`) and the sixth (`COMPLETED`):
`store_chunk`, `store_file_manifest`, `store_encryption_key` and `update_job_stats` all return
`false`. -/
def faultyEnv : Env := ⟨Codec.transparent, fun n => n = 0 ∨ n = 5⟩

/-- With its chunk, manifest, key and counters all unrecorded, the job ends `COMPLETED` and the
worker reports success; `restore_job` then fails, whatever the chunk store's cache holds. -/
theorem metadata_failure_completes :
    let s₀ : Sys := { db := (Db.empty.createJob oneFileJob 0 true).2, fs := oneFileFs }
    let r := Worker.execute faultyEnv "/var" 5 oneFileJob Bytes32.zero s₀
    r.2.failed = [.storeChunk, .storeFileManifest, .storeEncryptionKey, .updateJobStats] ∧
      r.1.success = true ∧ r.2.db.status 1 = some .completed ∧
      ∀ index, (RestoreEngine.restoreJob Codec.transparent index r.2.db r.2.fs 1 "/restore").1.success =
        false :=
  ⟨by decide, by decide, by decide, fun _ => RestoreEngine.restoreJob_of_no_key rfl rfl (by decide)⟩

end FileBackup
