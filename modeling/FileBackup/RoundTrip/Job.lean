import FileBackup.RoundTrip.Restore

/-!
# A backup restores

A run of `BackupWorker::execute` without a failed call, followed by
`RestoreEngine::restore_job` of the job into a fresh directory apart from the data directory,
puts back every regular file of the source, byte for byte, at its place below the destination
(`execute_restoreJob`), whichever process restores it: the cache of chunk paths of any process
with this data directory holds only the paths the chunks were written to. The data directory and
the destination are paths the kernel resolves as the model does (`Fs.LinkFree`), and the kernel
reads them and the source from one directory (`SameBase`). The theorem is assembled from one
result per stage:

* `execute_recorded`: the run records one manifest per file of the source and keeps the chunk
  store sound for the job's settings and key;
* `covers_execute`: every window of every file has a chunk row;
* `execute_completed`: the job's row ends `COMPLETED` under the job's settings, with the key
  stored when the job encrypts (`finishWrites_key`);
* `onlyAt_execute`: whatever its calls return, a run changes the filesystem only at or below the
  data directory, so a fresh destination apart from it stays fresh;
* `restoreJob_recorded`: the restore of a job so recorded.
-/

namespace FileBackup

/-- A path apart from `b` is apart from every path below `b`. -/
theorem apart_append {a b : Path} (h₁ : ¬ a <+: b) (h₂ : ¬ b <+: a) (t : Path) :
    ¬ a <+: b ++ t ∧ ¬ b ++ t <+: a :=
  ⟨not_prefix_append_of_apart h₁ h₂ t, fun h => h₂ ((List.prefix_append b t).trans h)⟩

/-- A path apart from the data directory is apart from the chunk store. -/
theorem apart_storageDir {dataDir : String} {p : Path} (h₁ : ¬ splitPath dataDir <+: p)
    (h₂ : ¬ p <+: splitPath dataDir) :
    ¬ splitPath (storageDir dataDir) <+: p ∧ ¬ p <+: splitPath (storageDir dataDir) := by
  rw [Worker.splitPath_storageDir]
  exact (apart_append h₂ h₁ ["storage"]).symm

/-- A path apart from the data directory is above no snapshot directory. -/
theorem not_prefix_snapshotDir {dataDir : String} {p : Path} (h₁ : ¬ splitPath dataDir <+: p)
    (h₂ : ¬ p <+: splitPath dataDir) (jobId : Int) (now : Nat) :
    ¬ p <+: splitPath (snapshotDir (snapshotsDir dataDir) jobId now) := by
  rw [Worker.splitPath_snapshotDir]
  exact (apart_append h₂ h₁ _).1

/-! ### Where a run writes -/

namespace ChunkStore

/-- A window's hash has no slash: it is lowercase hex. -/
theorem slash_not_mem_hashHex (c : Codec) (w : Bytes) : '/' ∉ (c.hashHex w).data :=
  fun h => absurd (isLowerHex_hexOf (c.sha256 w) '/' h) (by decide)

/-- The directory of a chunk file lies below the store. -/
theorem prefix_dirnameOf_getChunkPath (storageDir : String) {hash : String}
    (h : '/' ∉ hash.data) :
    splitPath storageDir <+: splitPath (dirnameOf (getChunkPath storageDir hash)) := by
  have e : getChunkPath storageDir hash = storageDir ++ "/" ++ ("chunks/" ++
      ⟨hash.data.take 2⟩ ++ "/" ++ ⟨(hash.data.drop 2).take 2⟩) ++ "/" ++ hash := by
    simp only [getChunkPath, String.append_assoc]; rfl
  rw [e, dirnameOf_append_slash _ _ h, splitPath_append_slash]
  exact List.prefix_append _ _

theorem onlyAt_chunkStep (env : Env) (storageDir : String) (comp : CompressionType)
    (encrypt : Bool) (key : Bytes32) (l : Loop) (w : Bytes) :
    Fs.OnlyAt (splitPath storageDir) l.sys.fs
      (chunkStep env storageDir comp encrypt key l w).sys.fs := by
  have hd := (Fs.onlyAt_mkdirP l.sys.fs [] _).mono
    (prefix_dirnameOf_getChunkPath storageDir (slash_not_mem_hashHex env.codec w))
  dsimp only [chunkStep]
  split
  · exact .refl _ _
  · split
    · exact .refl _ _
    · split
      · exact hd
      · rename_i _ hfs
        exact hd.trans ((Fs.onlyAt_writeFile hfs).mono (prefix_getChunkPath storageDir _))

theorem onlyAt_storeFile (env : Env) (storageDir : String) (s : Sys) (filePath : String)
    (comp : CompressionType) (encrypt : Bool) (key : Bytes32) (jobId : Int) (rel : String) :
    Fs.OnlyAt (splitPath storageDir) s.fs
      (storeFile env storageDir s filePath comp encrypt key jobId rel).2.fs := by
  dsimp only [storeFile]
  split
  · exact .refl _ _
  · split
    · exact .refl _ _
    · rename_i data _
      exact foldl_rel (fun x y : Loop => Fs.OnlyAt (splitPath storageDir) x.sys.fs y.sys.fs)
        (fun _ => .refl _ _) (fun h h' => h.trans h') _
        (onlyAt_chunkStep env storageDir comp encrypt key) (windows data) ⟨[], 0, 0, s⟩

end ChunkStore

theorem onlyAt_snapshotDirectory (fs : Fs) (es : List (String × Node)) (dst : Path) :
    Fs.OnlyAt dst fs (snapshotDirectory fs es dst).2 := by
  unfold snapshotDirectory
  split
  · rename_i name hname
    split
    · rename_i r hr
      rw [← List.dropLast_append_getLast? name hname]
      exact Fs.onlyAt_of_put hr
    · exact .refl _ _
  · exact .refl _ _

theorem onlyAt_copyFile (fs : Fs) (src dst : Path) : Fs.OnlyAt dst fs (copyFile fs src dst).2 := by
  unfold copyFile
  split
  · exact .refl _ _
  · rename_i _ h₁
    split
    · exact Fs.onlyAt_writeFile h₁
    · split
      · rename_i _ h₂
        exact (Fs.onlyAt_writeFile h₁).trans (Fs.onlyAt_writeFile h₂)
      · exact Fs.onlyAt_writeFile h₁

theorem createSnapshot_snapshotPath (fs : Fs) (baseDir : String) (jobId : Int)
    (sourcePath : String) (now : Nat) :
    (createSnapshot fs baseDir jobId sourcePath now).1.snapshotPath = snapshotDir baseDir jobId now := by
  unfold createSnapshot
  dsimp only
  split <;> rfl

theorem prefix_snapshotDir (baseDir : String) (jobId : Int) (now : Nat) :
    splitPath baseDir <+: splitPath (snapshotDir baseDir jobId now) := by
  have e : snapshotDir baseDir jobId now =
      baseDir ++ "/" ++ ("snap_" ++ toString jobId ++ "_" ++ toString now) := by
    simp only [snapshotDir, String.append_assoc]; rfl
  rw [e, splitPath_append_slash]
  exact List.prefix_append _ _

/-- A snapshot, whatever its source, changes the filesystem only below its base directory. -/
theorem onlyAt_createSnapshot (fs : Fs) (baseDir : String) (jobId : Int) (sourcePath : String)
    (now : Nat) : Fs.OnlyAt (splitPath baseDir) fs (createSnapshot fs baseDir jobId sourcePath now).2 := by
  have hb := prefix_snapshotDir baseDir jobId now
  have h₀ := (Fs.onlyAt_mkdirP fs [] (splitPath (snapshotDir baseDir jobId now))).mono hb
  unfold createSnapshot
  dsimp only
  split
  · exact h₀
  · exact h₀.trans ((onlyAt_snapshotDirectory _ _ _).mono hb)
  · refine h₀.trans ((onlyAt_copyFile _ _ _).mono (hb.trans ?_))
    rw [splitPath_append_slash]
    exact List.prefix_append _ _

theorem onlyAt_removeSnapshot (fs : Fs) (info : SnapshotInfo) :
    Fs.OnlyAt (splitPath info.snapshotPath) fs (removeSnapshot fs info) := by
  unfold removeSnapshot
  split
  · exact .refl _ _
  · exact Fs.onlyAt_removeRecursive _ _

namespace Worker

theorem onlyAt_fileStep (env : Env) (dataDir : String) (job : BackupJob) (key : Bytes32)
    (base : String) (t : Tally) (f : String) :
    Fs.OnlyAt (splitPath (storageDir dataDir)) t.sys.fs
      (fileStep env dataDir job key base t f).sys.fs := by
  dsimp only [fileStep]
  split
  · exact .refl _ _
  · exact ChunkStore.onlyAt_storeFile env (storageDir dataDir) t.sys f job.compression job.encrypt
      key job.jobId (relPath base f)

theorem onlyAt_storeFiles (env : Env) (dataDir : String) (job : BackupJob) (key : Bytes32)
    (snap : SnapshotInfo) (s : Sys) :
    Fs.OnlyAt (splitPath (storageDir dataDir)) s.fs (storeFiles env dataDir job key snap s).sys.fs :=
  ChunkStore.foldl_rel (fun x y : Tally => Fs.OnlyAt (splitPath (storageDir dataDir)) x.sys.fs y.sys.fs)
    (fun _ => .refl _ _) (fun h h' => h.trans h') _ (onlyAt_fileStep env dataDir job key _) _ _

/-- A run of `execute`, whatever its calls return, changes the filesystem only at or below the
data directory: every entry after it was there before, is a directory on the way to the data
directory, or lies at or below it. -/
theorem onlyAt_execute (env : Env) (dataDir : String) (now : Nat) (job : BackupJob)
    (key : Bytes32) (s : Sys) :
    Fs.OnlyAt (splitPath dataDir) s.fs (execute env dataDir now job key s).2.fs := by
  have hsnap : splitPath dataDir <+: splitPath (snapshotsDir dataDir) := by
    rw [show snapshotsDir dataDir = dataDir ++ "/" ++ "snapshots" by
      simp only [snapshotsDir, String.append_assoc]; rfl, splitPath_append_slash]
    exact List.prefix_append _ _
  have hstore : splitPath dataDir <+: splitPath (storageDir dataDir) := by
    rw [splitPath_storageDir]; exact List.prefix_append _ _
  have h₁ := (onlyAt_createSnapshot s.fs (snapshotsDir dataDir) job.jobId job.sourcePath now).mono
    hsnap
  have hp := createSnapshot_snapshotPath s.fs (snapshotsDir dataDir) job.jobId job.sourcePath now
  rw [execute_eq]
  generalize createSnapshot s.fs (snapshotsDir dataDir) job.jobId job.sourcePath now = snap at h₁ hp
  unfold fromSnapshot
  dsimp only
  split
  · exact h₁
  · refine h₁.trans (((onlyAt_storeFiles env dataDir job key snap.1
      { running env job s with fs := snap.2 }).mono hstore).trans ?_)
    rw [finishWrites_fs]
    exact (onlyAt_removeSnapshot _ _).mono (hp ▸ hsnap.trans (prefix_snapshotDir _ _ _))

end Worker

/-! ### The job's row and key after a run -/

namespace Db

@[simp] theorem updateJobStatus_keys (db : Db) (id : Int) (s : JobStatus) (e : String) (ok : Bool) :
    (db.updateJobStatus id s e ok).2.keys = db.keys := by
  unfold updateJobStatus; split <;> rfl

@[simp] theorem updateJobStats_keys (db : Db) (id : Int) (t p st d f : Nat) (ok : Bool) :
    (db.updateJobStats id t p st d f ok).2.keys = db.keys := by
  unfold updateJobStats; split <;> rfl

/-- A key write that went through holds the key. -/
theorem getEncryptionKey_storeEncryptionKey {db : Db} {id : Int} {k : String} {ok : Bool}
    (h : (db.storeEncryptionKey id k ok).1 = true) :
    (db.storeEncryptionKey id k ok).2.getEncryptionKey id = k := by
  unfold storeEncryptionKey at h ⊢
  split at h
  · rename_i hok
    simp [hok, getEncryptionKey]
  · cases h

end Db

namespace Worker

/-- The writes after the file loop, when none of them failed, leave an encrypting job's key
stored as hex. -/
theorem finishWrites_key {env : Env} {job : BackupJob} {key : Bytes32} {t : Tally}
    (he : job.encrypt = true) (hc : (finishWrites env job key t).failed = t.sys.failed) :
    (finishWrites env job key t).db.getEncryptionKey job.jobId = keyToHex key := by
  unfold finishWrites at hc ⊢
  dsimp only at hc ⊢
  rw [if_pos he] at hc ⊢
  have e₁ := ChunkStore.prefix_squeeze (Sys.prefix_failed_write ..)
    ((Sys.prefix_failed_write ..).trans (Sys.prefix_failed_write ..)) hc
  have hk := Db.getEncryptionKey_storeEncryptionKey (Sys.ok_of_failed_write e₁)
  simpa only [Sys.write_db, Db.getEncryptionKey, Db.updateJobStatus_keys,
    Db.updateJobStats_keys] using hk

/-- A run of `execute` without a failed call, of a job as its row stores it, ends with the row
`COMPLETED` under the job's settings and, when the job encrypts, the key stored as hex. -/
theorem execute_completed {env : Env} {dataDir : String} {now : Nat} {job : BackupJob}
    {key : Bytes32} {s : Sys} (hrow : s.db.getJob job.jobId = some job)
    (hcl : (execute env dataDir now job key s).2.failed = s.failed) :
    ∃ J, (execute env dataDir now job key s).2.db.getJob job.jobId = some J ∧
      J.status = .completed ∧ J.compression = job.compression ∧ J.encrypt = job.encrypt ∧
      (job.encrypt = true →
        (execute env dataDir now job key s).2.db.getEncryptionKey job.jobId = keyToHex key) := by
  obtain ⟨hok, hfs⟩ := execute_of_clean hcl
  obtain ⟨hcons, hloop, hfin⟩ := fromSnapshot_of_clean hfs
  have hrow' : s.db.jobs job.jobId = some job := hrow
  have hrun := (sameJobs_storeFiles env dataDir job key
    (createSnapshot s.fs (snapshotsDir dataDir) job.jobId job.sourcePath now).1
    { running env job s with
      fs := (createSnapshot s.fs (snapshotsDir dataDir) job.jobId job.sourcePath now).2 }).1
  have hrow₂ := finishWrites_row (J := Db.setStatus job .running "")
    (by rw [hrun]; simp [Db.updateJobStatus_jobs, hok, hrow']) (hfin.trans hloop.symm)
  rw [execute_eq, fromSnapshot_db_of_consistent _ _ _ _ _ hcons]
  refine ⟨_, hrow₂, by simp [Db.setStatus], ?_, ?_,
    fun he => finishWrites_key he (hfin.trans hloop.symm)⟩ <;>
  · unfold Db.setStatus Db.setStats; split <;> split <;> rfl

end Worker

/-! ### The round trip -/

/-- A file that reads at `src ++ t`, below a directory `es` at `src`, reads the same at `dst ++ t`
when each file of `es` does. -/
theorem Fs.readFile_of_filesOf {fs fs' : Fs} {src dst : Path} {es : List (String × Node)}
    (hsrc : fs.lookup src = some (.dir es))
    (h : ∀ x ∈ Node.filesOf es, fs'.readFile (dst ++ x.1) = some (fs.inodes x.2)) {t : Path}
    {b : Bytes} (hb : fs.readFile (src ++ t) = some b) : fs'.readFile (dst ++ t) = some b := by
  obtain ⟨i, hl, rfl⟩ := Fs.readFile_eq_some.1 hb
  rw [Fs.lookup, Node.get_append, ← Fs.lookup, hsrc, Option.some_bind] at hl
  exact h (t, i) (Node.mem_files_of_get hl)

/-- A backup restores. Let a process whose libraries meet their specifications run `execute`
without a failed call on a job stored as its row with no manifests yet, over a well-formed
source directory apart from the data directory, from a chunk store that is sound for the job's
settings and key, and let the hashes of the windows of the source's files be distinct. Let the
data directory and the destination have no `..` component and no symbolic link on the way, at or
below them, and let the data directory, the destination and the source be all absolute or all
relative (`_hdata`, `_hdest`, `_hbase`: there the kernel resolves each path as the model does,
and apart paths are apart on disk). Then
`restore_job` of the job, through any cache of chunk paths of the store, into a fresh destination
apart from the data directory succeeds, counts every file of the source, and puts each regular
file of the source, with its bytes, at the same place below the destination. -/
theorem execute_restoreJob {env : Env} {dataDir dest : String} {now : Nat} {job : BackupJob}
    {key : Bytes32} {s : Sys} {es : List (String × Node)} {W : List Bytes}
    {index : ChunkStore.ChunkIndex}
    (hc : env.codec.Lawful) (hinj : Set.InjOn env.codec.hashHex {w | w ∈ W})
    (hsrc : s.fs.lookup (splitPath job.sourcePath) = some (.dir es)) (hwf : Node.WfOf es)
    (hW : ∀ x ∈ Node.filesOf es, ∀ w ∈ windows (s.fs.inodes x.2), w ∈ W)
    (hsound : ChunkStore.Sound env.codec (storageDir dataDir) job.compression job.encrypt key W
      s.db s.fs)
    (hids : s.db.ManifestIdsBelow) (hrow : s.db.getJob job.jobId = some job)
    (hnew : s.db.getFileManifests job.jobId = [])
    (hsd₁ : ¬ splitPath dataDir <+: splitPath job.sourcePath)
    (hsd₂ : ¬ splitPath job.sourcePath <+: splitPath dataDir)
    (hfresh : s.fs.Fresh (splitPath dest))
    (hd₁ : ¬ splitPath dataDir <+: splitPath dest) (hd₂ : ¬ splitPath dest <+: splitPath dataDir)
    (_hdata : s.fs.LinkFree (splitPath dataDir)) (_hdest : s.fs.LinkFree (splitPath dest))
    (_hbase : SameBase dataDir dest ∧ SameBase dataDir job.sourcePath)
    (hcl : (Worker.execute env dataDir now job key s).2.failed = s.failed)
    (hidx : index.InStore (storageDir dataDir)) :
    let r := Worker.execute env dataDir now job key s
    let r' := RestoreEngine.restoreJob env.codec index r.2.db r.2.fs job.jobId dest
    r'.1.success = true ∧ r'.1.filesRestored = (Node.filesOf es).length ∧
      ∀ t b, s.fs.readFile (splitPath job.sourcePath ++ t) = some b →
        r'.2.readFile (splitPath dest ++ t) = some b := by
  -- the places: the source and the destination lie apart from the store and the snapshot
  obtain ⟨hs₁, hs₂⟩ := apart_storageDir hsd₁ hsd₂
  obtain ⟨hdst₁, hdst₂⟩ := apart_storageDir hd₁ hd₂
  have hsep := not_prefix_snapshotDir hsd₁ hsd₂ job.jobId now
  -- the run
  obtain ⟨hsound', -, ms, hms, hget⟩ :=
    Worker.execute_recorded hc hinj hsrc hwf hW hsound hids hs₁ hs₂ hsep hcl
  obtain ⟨J, hrow', hst, hcomp, henc, hkey⟩ := Worker.execute_completed hrow hcl
  rw [hnew, List.nil_append] at hget
  -- the restore
  obtain ⟨hsucc, hcount, hfiles⟩ := RestoreEngine.restoreJob_recorded hidx hrow' hst
    (fun he => hkey (henc ▸ he)) hwf (hget ▸ hms) hW
    (Worker.covers_execute hsrc hwf hsound.owned.confined hs₁ hs₂ hsep hcl)
    (hcomp ▸ henc ▸ hsound') (hfresh.onlyAt (Worker.onlyAt_execute env dataDir now job key s) hd₁ hd₂) hdst₁ hdst₂
  exact ⟨hsucc, hcount, fun t b hb => Fs.readFile_of_filesOf hsrc hfiles hb⟩

/-- Job 1 of `pairStart`, backed up under `/var` by a process none of whose calls fails,
restores `/data` below `/restore` in a process that has stored nothing. -/
theorem pair_restores :
    let r := Worker.execute (Env.reliable Codec.transparent) "/var" 5 (dataJob 1) Bytes32.zero
      pairStart
    let r' := RestoreEngine.restoreJob Codec.transparent .empty r.2.db r.2.fs 1 "/restore"
    r'.1.success = true ∧ r'.1.filesRestored = (Node.filesOf [("a", .file 0), ("b", .file 1)]).length ∧
      ∀ t b, pairStart.fs.readFile (splitPath "/data" ++ t) = some b →
        r'.2.readFile (splitPath "/restore" ++ t) = some b :=
  @execute_restoreJob (Env.reliable Codec.transparent) "/var" "/restore" 5 (dataJob 1) Bytes32.zero
    pairStart [("a", .file 0), ("b", .file 1)] [[7], [8, 9]] .empty Codec.transparent_lawful
    (fun x hx y hy h => by
      simp only [Set.mem_setOf_eq, List.mem_cons, List.mem_singleton, List.not_mem_nil,
        or_false] at hx hy
      rcases hx with rfl | rfl <;> rcases hy with rfl | rfl <;>
        first | rfl | exact absurd h (by decide))
    rfl ⟨by decide, by decide, trivial, by decide, by decide, trivial, trivial⟩ (by decide)
    (ChunkStore.sound_of_no_chunks (fun _ => rfl) (Fs.owned_of_files (by decide)))
    ⟨by decide, by decide⟩ rfl rfl (by decide) (by decide) (Fs.fresh_of_parent rfl rfl)
    (by decide) (by decide) (by decide) (by decide) (by decide) (by decide)
    (ChunkStore.ChunkIndex.inStore_empty _)

end FileBackup
