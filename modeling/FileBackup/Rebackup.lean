import FileBackup.Dedup
import FileBackup.Restore

/-!
# Backing up an unchanged tree again

A job without a failed call leaves every window of every file of its source recorded
(`covers_execute`); a job over a source whose files are all recorded stores nothing: it adds no
chunk row, and its row ends with `stored_bytes = 0` and `dedup_savings = total_bytes =
processed_bytes` (`execute_of_covers`). So a second backup of an unchanged tree, in the same
process or another, with any settings and any key, changes no chunk row and stores nothing
(`rebackup_stores_nothing`).

The second job's manifests name the first job's chunks whatever its own key and settings, and
`restore_job` decodes every chunk of a job with that job's key and settings.

The source is a well-formed directory that lies apart from the chunk store and is not above the
snapshot directory: a source containing the chunk store would see its own chunk writes.
-/

namespace FileBackup

namespace Worker

/-- A run of `execute` without a failed call, over a well-formed source directory apart from the
chunk store, from a filesystem that keeps the chunk store apart, leaves the bytes of every file
of the source recorded. -/
theorem covers_execute {env : Env} {dataDir : String} {now : Nat} {job : BackupJob}
    {key : Bytes32} {s : Sys} {es : List (String × Node)}
    (hsrc : s.fs.lookup (splitPath job.sourcePath) = some (.dir es)) (hwf : Node.WfOf es)
    (hconf : s.fs.Confined (splitPath (storageDir dataDir)))
    (hs₁ : ¬ splitPath (storageDir dataDir) <+: splitPath job.sourcePath)
    (hs₂ : ¬ splitPath job.sourcePath <+: splitPath (storageDir dataDir))
    (hsep : ¬ splitPath job.sourcePath <+:
      splitPath (snapshotDir (snapshotsDir dataDir) job.jobId now))
    (hc : (execute env dataDir now job key s).2.failed = s.failed) :
    ∀ x ∈ Node.filesOf es,
      (execute env dataDir now job key s).2.db.Covers env.codec (s.fs.inodes x.2) := by
  obtain ⟨-, hfs⟩ := execute_of_clean hc
  obtain ⟨hcons, hst, -⟩ := fromSnapshot_of_clean hfs
  obtain ⟨hino, hlist, hlook⟩ := createSnapshot_dir hsrc hwf hsep Prod.mk.eta.symm hcons
  obtain ⟨ha₁, ha₂⟩ := storage_apart_snapshot dataDir job.jobId now
  have hconf₀ := Fs.Confined.createSnapshot hconf hsrc hwf hsep hs₁ hs₂ ha₁ ha₂
    Prod.mk.eta.symm hcons
  intro x hx
  have hcov := covers_storeFiles env dataDir job key _ _ hconf₀ hst _
    (by rw [hlist]; exact List.mem_map_of_mem _ hx) x.2
    (by rw [splitPath_listed _ hwf hx]; exact not_prefix_append_of_apart ha₁ ha₂ x.1)
    (by rw [splitPath_listed _ hwf hx]; exact hlook x hx)
  rw [hino] at hcov
  dsimp only [execute, Sys.write_fs]
  rw [fromSnapshot_of_consistent _ _ _ _ _ hcons]
  exact hcov.grow (chunksGrow_of_chunks (by simp))

/-- A run of `execute` without a failed call, over a well-formed source directory whose files
all have their windows recorded, stores nothing: the chunk rows are unchanged, and the job's row
ends with `stored_bytes = 0` and `dedup_savings = total_bytes = processed_bytes`. -/
theorem execute_of_covers {env : Env} {dataDir : String} {now : Nat} {job : BackupJob}
    {key : Bytes32} {s : Sys} {es : List (String × Node)} {J : BackupJob}
    (hsrc : s.fs.lookup (splitPath job.sourcePath) = some (.dir es)) (hwf : Node.WfOf es)
    (hsep : ¬ splitPath job.sourcePath <+:
      splitPath (snapshotDir (snapshotsDir dataDir) job.jobId now))
    (hcov : ∀ x ∈ Node.filesOf es, s.db.Covers env.codec (s.fs.inodes x.2))
    (hrow : s.db.jobs job.jobId = some J)
    (hc : (execute env dataDir now job key s).2.failed = s.failed) :
    (execute env dataDir now job key s).2.db.chunks = s.db.chunks ∧
      ∃ J', (execute env dataDir now job key s).2.db.jobs job.jobId = some J' ∧
        J'.storedBytes = 0 ∧ J'.dedupSavings = J'.totalBytes ∧ J'.totalBytes = J'.processedBytes := by
  obtain ⟨hok, hfs⟩ := execute_of_clean hc
  obtain ⟨hcons, hloop, hfin⟩ := fromSnapshot_of_clean hfs
  obtain ⟨hino, hlist, hlook⟩ := createSnapshot_dir hsrc hwf hsep Prod.mk.eta.symm hcons
  obtain ⟨-, hch, hst, hdd, hpr⟩ := storeFiles_of_covers env dataDir job key
    (createSnapshot s.fs (snapshotsDir dataDir) job.jobId job.sourcePath now) (running env job s)
    (by
      rw [hlist]
      intro f hf
      obtain ⟨x, hx, rfl⟩ := List.mem_map.1 hf
      refine ⟨x.2, by rw [splitPath_listed _ hwf hx]; exact hlook x hx, ?_⟩
      rw [hino]
      exact (hcov x hx).grow (chunksGrow_of_chunks (by simp)))
  have hrow₂ := finishWrites_row (J := Db.setStatus J .running "")
    (by rw [(sameJobs_storeFiles ..).1]; simp [Db.updateJobStatus_jobs, hok, hrow])
    (hfin.trans hloop.symm)
  rw [execute_eq, fromSnapshot_db_of_consistent _ _ _ _ _ hcons]
  refine ⟨(finishWrites_chunks ..).trans (hch.trans (by simp)), _, hrow₂, ?_⟩
  simp only [Db.setStatus_counters, Db.setStats]
  exact ⟨hst, hdd, hpr.symm⟩

end Worker

/-- Backing an unchanged tree up again stores nothing. Job 1 backs up the well-formed directory
`es` from `s₁` without a failed call; later, from any `s₂` whose chunk rows are those job 1 left
and whose source, wherever it lies, is the same directory with the same bytes, job 2 backs it up
without a failed call, with any settings, key and data directory. Then job 2 leaves the chunk
rows as job 1 left them, and its row ends with `stored_bytes = 0` and
`dedup_savings = total_bytes = processed_bytes`. -/
theorem rebackup_stores_nothing {env₁ env₂ : Env} {dataDir₁ dataDir₂ : String} {now₁ now₂ : Nat}
    {job₁ job₂ : BackupJob} {key₁ key₂ : Bytes32} {s₁ s₂ : Sys} {es : List (String × Node)}
    {J : BackupJob} (hcodec : env₂.codec = env₁.codec)
    (hsrc₁ : s₁.fs.lookup (splitPath job₁.sourcePath) = some (.dir es)) (hwf : Node.WfOf es)
    (hsrc₂ : s₂.fs.lookup (splitPath job₂.sourcePath) = some (.dir es))
    (hino : ∀ x ∈ Node.filesOf es, s₂.fs.inodes x.2 = s₁.fs.inodes x.2)
    (hconf : s₁.fs.Confined (splitPath (storageDir dataDir₁)))
    (hs₁ : ¬ splitPath (storageDir dataDir₁) <+: splitPath job₁.sourcePath)
    (hs₂ : ¬ splitPath job₁.sourcePath <+: splitPath (storageDir dataDir₁))
    (hsep₁ : ¬ splitPath job₁.sourcePath <+:
      splitPath (snapshotDir (snapshotsDir dataDir₁) job₁.jobId now₁))
    (hsep₂ : ¬ splitPath job₂.sourcePath <+:
      splitPath (snapshotDir (snapshotsDir dataDir₂) job₂.jobId now₂))
    (hchunks : s₂.db.chunks = (Worker.execute env₁ dataDir₁ now₁ job₁ key₁ s₁).2.db.chunks)
    (hrow : s₂.db.jobs job₂.jobId = some J)
    (hc₁ : (Worker.execute env₁ dataDir₁ now₁ job₁ key₁ s₁).2.failed = s₁.failed)
    (hc₂ : (Worker.execute env₂ dataDir₂ now₂ job₂ key₂ s₂).2.failed = s₂.failed) :
    (Worker.execute env₂ dataDir₂ now₂ job₂ key₂ s₂).2.db.chunks =
        (Worker.execute env₁ dataDir₁ now₁ job₁ key₁ s₁).2.db.chunks ∧
      ∃ J', (Worker.execute env₂ dataDir₂ now₂ job₂ key₂ s₂).2.db.jobs job₂.jobId = some J' ∧
        J'.storedBytes = 0 ∧ J'.dedupSavings = J'.totalBytes ∧ J'.totalBytes = J'.processedBytes := by
  have hcov₁ := Worker.covers_execute hsrc₁ hwf hconf hs₁ hs₂ hsep₁ hc₁
  obtain ⟨hch, hrow₂⟩ := Worker.execute_of_covers hsrc₂ hwf hsep₂
    (fun x hx => by
      rw [hino x hx, hcodec]
      exact (hcov₁ x hx).grow (chunksGrow_of_chunks hchunks)) hrow hc₂
  exact ⟨hch.trans hchunks, hrow₂⟩

/-- Job `id` over `/data`, submitted with the defaults (LZ4, encrypted). -/
def dataJob (id : Int) : BackupJob := { jobId := id, sourcePath := "/data", backupName := "nightly" }

/-- `/data` holding two files with different bytes. -/
def pairFs : Fs :=
  ⟨.dir [("data", .dir [("a", .file 0), ("b", .file 1)])], fun i => if i = 0 then [7] else [8, 9], 2⟩

/-- Jobs 1 and 2 submitted, nothing stored yet. -/
def pairStart : Sys :=
  { db := ((Db.empty.createJob (dataJob 1) 0 true).2.createJob (dataJob 2) 0 true).2, fs := pairFs }

/-- Job 1, run with the all-zero key by a process none of whose calls fails. -/
def firstRun : Result × Sys :=
  Worker.execute (Env.reliable Codec.transparent) "/var" 5 (dataJob 1) Bytes32.zero pairStart

/-- The key of a second process. -/
def secondKey : Bytes32 := ⟨List.replicate 32 1, rfl⟩

theorem rebackup_pair_stores_nothing :
    (Worker.execute (Env.reliable Codec.transparent) "/var" 6 (dataJob 2) secondKey
        firstRun.2).2.db.chunks = firstRun.2.db.chunks ∧
      ∃ J', (Worker.execute (Env.reliable Codec.transparent) "/var" 6 (dataJob 2) secondKey
          firstRun.2).2.db.jobs 2 = some J' ∧
        J'.storedBytes = 0 ∧ J'.dedupSavings = J'.totalBytes ∧ J'.totalBytes = J'.processedBytes :=
  rebackup_stores_nothing rfl rfl ⟨by decide, by decide, trivial, by decide, by decide, trivial, trivial⟩
    rfl (by decide) (Fs.confined_of_files (by decide)) (by decide) (by decide) (by decide)
    (by decide) rfl rfl (by decide) (by decide)

/-- With libraries that meet their specifications, job 2, run by a second process with its own
key, stores nothing: its manifests name job 1's chunks, encrypted under job 1's key. Both jobs
end `COMPLETED` without a failed call; job 1 restores `/data/a` byte for byte, and job 2 does
not restore, in the second process, whose cache is empty since it wrote no chunk. -/
theorem second_key_unrestorable :
    let r : Result × Sys := Worker.execute (Env.reliable Codec.transparent) "/var" 6 (dataJob 2)
      secondKey firstRun.2
    Codec.transparent.Lawful ∧ firstRun.2.failed = [] ∧ r.2.failed = [] ∧
      r.2.db.status 1 = some .completed ∧ r.2.db.status 2 = some .completed ∧
      (RestoreEngine.restoreJob Codec.transparent .empty r.2.db r.2.fs 1 "/restore").1.success = true ∧
      (RestoreEngine.restoreJob Codec.transparent .empty r.2.db r.2.fs 1 "/restore").2.readFile
        ["restore", "a"] = some [7] ∧
      (RestoreEngine.restoreJob Codec.transparent .empty r.2.db r.2.fs 2 "/restore").1.success = false :=
  ⟨Codec.transparent_lawful, by decide⟩

end FileBackup
