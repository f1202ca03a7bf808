import FileBackup.Verify

/-!
# A completed backup stays restorable

`execute_restoreJob` restores a job right after its run. The process goes on between the two:
jobs are submitted, other jobs change status and run over their own sources with their own
settings, keys and codecs, and restores write other destinations. None of this reaches what a
restore of the completed job reads, so the restore still succeeds and puts back every file of the
source (`execute_later_restoreJob`), through any cache of chunk paths of the store.

* `Db.Agrees j`: the tables answer a restore of job `j` as before (its row, its key, its
  manifests) and hand out no smaller id. A submission and `store_chunk` keep it, and so do the
  writes for another job (`update_job_status`, `update_job_stats`, `store_encryption_key`,
  `store_file_manifest`).
* `Kept`: what the restore reads (`Db.RecordsJob`), a row for each window of the job's files, and
  a store sound for them.
  * A chunk that any run writes has no row, so its hash is none of the job's windows' and its
    file is another one (`Sound.decodes_of_write`): `store_file` keeps the invariant with any
    settings, key and codec, whatever its calls return (`Kept.storeFile`).
  * A snapshot of a well-formed source apart from the store, consistent or not, writes outside
    the store (`Fs.writesOutside_createSnapshot_dir`), and so does a restore into a destination
    apart from it (`writesOutside_restoreJob`).
* `Later dataDir j`: the steps of `Step` that leave job `j` alone (`Later.step`);
  `Kept.of_later` is the invariant over every run of them.
-/

namespace FileBackup

open ChunkStore

/-! ### The tables a restore reads -/

namespace Db

variable {db db' db'' : Db} {j : Int}

@[simp] theorem storeChunk_keys (db : Db) (h p : String) (o s : Nat) (c : CompressionType)
    (e ok : Bool) : (db.storeChunk h p o s c e ok).2.keys = db.keys := by
  unfold storeChunk; split <;> rfl

@[simp] theorem storeFileManifest_keys (db : Db) (id : Int) (m : FileManifest) (ok : Bool) :
    (db.storeFileManifest id m ok).2.keys = db.keys := by
  unfold storeFileManifest; split <;> rfl

/-- A manifest row of another job, with chunk rows under a fresh id, leaves job `j`'s manifests
as they were. -/
theorem getFileManifests_append_of_ne {row : ManifestRow} {rows : List FileChunkRow}
    (hids : db.ManifestIdsBelow) (hm : db'.manifests = db.manifests ++ [row])
    (hc : db'.fileChunks = db.fileChunks ++ rows)
    (hr : ∀ fc ∈ rows, fc.manifestId = db.nextManifestId) (hj : row.jobId ≠ j) :
    db'.getFileManifests j = db.getFileManifests j := by
  unfold getFileManifests
  simp only [hm, List.filter_append, List.filter_cons, List.filter_nil, hj, decide_False,
    Bool.false_eq_true, ↓reduceIte, List.append_nil]
  exact List.map_congr_left fun r h => by
    rw [chunksOf_append_of_ne hc fun fc hfc =>
      (hr fc hfc).symm ▸ (hids.manifests r (List.mem_of_mem_filter h)).ne']

theorem getFileManifests_storeFileManifest_of_ne {jobId : Int} (hids : db.ManifestIdsBelow)
    (hne : jobId ≠ j) (m : FileManifest) (ok : Bool) :
    (db.storeFileManifest jobId m ok).2.getFileManifests j = db.getFileManifests j := by
  cases hok : (db.storeFileManifest jobId m ok).1
  · rw [storeFileManifest_of_fail hok]
  · rw [storeFileManifest_of_ok hok]
    exact getFileManifests_append_of_ne hids rfl rfl
      (fun fc hfc => by obtain ⟨c, -, rfl⟩ := List.mem_map.1 hfc; rfl) hne

/-- `db'` answers a restore of job `j` as `db` does: the same row and key and, while manifest ids
stay below the next one, the same manifests; and no job id is handed out twice. -/
structure Agrees (j : Int) (db db' : Db) : Prop where
  row : db'.getJob j = db.getJob j
  key : db'.getEncryptionKey j = db.getEncryptionKey j
  manifests : db.ManifestIdsBelow →
    db'.ManifestIdsBelow ∧ db'.getFileManifests j = db.getFileManifests j
  next : db.nextJobId ≤ db'.nextJobId

theorem Agrees.trans (h₁ : db.Agrees j db') (h₂ : db'.Agrees j db'') : db.Agrees j db'' :=
  ⟨h₂.row.trans h₁.row, h₂.key.trans h₁.key, fun hi =>
    have h₁' := h₁.manifests hi
    have h₂' := h₂.manifests h₁'.1
    ⟨h₂'.1, h₂'.2.trans h₁'.2⟩, h₁.next.trans h₂.next⟩

/-- A change of other rows and keys, with the same manifests tables, agrees. -/
theorem agrees_of_sameManifests (hrow : db'.jobs j = db.jobs j) (hkey : db'.keys j = db.keys j)
    (hm : SameManifests db db') (hn : db'.nextJobId = db.nextJobId) : db.Agrees j db' :=
  ⟨hrow, by rw [getEncryptionKey, getEncryptionKey, hkey], fun hi =>
    ⟨hm.idsBelow hi, hm.getFileManifests_eq j⟩, hn.ge⟩

theorem agrees_storeChunk (db : Db) (h p : String) (o s : Nat) (c : CompressionType)
    (e ok : Bool) (j : Int) : db.Agrees j (db.storeChunk h p o s c e ok).2 :=
  agrees_of_sameManifests (by simp) (by simp) (sameManifests_storeChunk ..) (by simp)

theorem agrees_updateJobStatus {id : Int} (hid : id ≠ j) (db : Db) (s : JobStatus) (e : String)
    (ok : Bool) : db.Agrees j (db.updateJobStatus id s e ok).2 :=
  agrees_of_sameManifests (by simp [updateJobStatus_jobs, hid.symm]) (by simp)
    (sameManifests_updateJobStatus ..) (by simp)

theorem agrees_updateJobStats {id : Int} (hid : id ≠ j) (db : Db) (t p st d f : Nat) (ok : Bool) :
    db.Agrees j (db.updateJobStats id t p st d f ok).2 :=
  agrees_of_sameManifests (by simp [updateJobStats_jobs, hid.symm]) (by simp)
    (sameManifests_updateJobStats ..) (by simp)

theorem agrees_storeEncryptionKey {id : Int} (hid : id ≠ j) (db : Db) (k : String) (ok : Bool) :
    db.Agrees j (db.storeEncryptionKey id k ok).2 := by
  refine agrees_of_sameManifests (by simp) ?_ (sameManifests_storeEncryptionKey ..) (by simp)
  unfold storeEncryptionKey
  split
  · exact Function.update_noteq hid.symm _ _
  · rfl

theorem agrees_storeFileManifest {id : Int} (hid : id ≠ j) (db : Db) (m : FileManifest)
    (ok : Bool) : db.Agrees j (db.storeFileManifest id m ok).2 :=
  ⟨by simp [getJob], by simp [getEncryptionKey], fun hi =>
    ⟨hi.storeFileManifest id m ok, getFileManifests_storeFileManifest_of_ne hi hid m ok⟩, by simp⟩

/-- A submission takes the next id, which is not `j`'s. -/
theorem agrees_createJob (db : Db) (hj : j < db.nextJobId) (job : BackupJob) (now : Nat)
    (ok : Bool) : db.Agrees j (db.createJob job now ok).2 := by
  unfold createJob
  dsimp only
  split
  · exact ⟨Function.update_noteq hj.ne _ _, rfl, fun hi => ⟨⟨hi.1, hi.2⟩, rfl⟩, Nat.le_succ _⟩
  · exact ⟨rfl, rfl, fun hi => ⟨hi, rfl⟩, le_rfl⟩

/-- The tables hold job `j` as the row `J`, with its key (when it encrypts) and the manifests
`ms`; manifest ids are below the next one, and `j` below the next job id. -/
structure RecordsJob (j : Int) (J : BackupJob) (key : Bytes32) (ms : List FileManifest)
    (db : Db) : Prop where
  row : db.getJob j = some J
  keyHex : J.encrypt = true → db.getEncryptionKey j = keyToHex key
  manifests : db.getFileManifests j = ms
  ids : db.ManifestIdsBelow
  below : j < db.nextJobId

theorem RecordsJob.of_agrees {J : BackupJob} {key : Bytes32} {ms : List FileManifest}
    (h : db.RecordsJob j J key ms) (ha : db.Agrees j db') : db'.RecordsJob j J key ms :=
  have hm := ha.manifests h.ids
  ⟨ha.row.trans h.row, fun he => ha.key.trans (h.keyHex he), hm.2.trans h.manifests, hm.1,
    lt_of_lt_of_le h.below (Int.ofNat_le.2 ha.next)⟩

end Db

/-! ### Where the other steps write -/

/-- `snapshot_directory` that fails leaves the filesystem as it was. -/
theorem snapshotDirectory_of_fail {fs : Fs} {es : List (String × Node)} {dst : Path}
    (h : (snapshotDirectory fs es dst).1 = false) : (snapshotDirectory fs es dst).2 = fs := by
  unfold snapshotDirectory at h ⊢
  split at h
  · split at h
    · cases h
    · simp only [*]
  · simp only [*]

/-- A snapshot of a well-formed source directory, placed and taken apart from `s`, consistent or
not, keeps the files below `s` single links with their bytes. -/
theorem Fs.writesOutside_createSnapshot_dir {s : Path} {fs : Fs} {baseDir sourcePath : String}
    {jobId : Int} {now : Nat} {es : List (String × Node)}
    (hsrc : fs.lookup (splitPath sourcePath) = some (.dir es)) (hwf : Node.WfOf es)
    (hsep : ¬ splitPath sourcePath <+: splitPath (snapshotDir baseDir jobId now))
    (hs₁ : ¬ s <+: splitPath sourcePath) (hs₂ : ¬ splitPath sourcePath <+: s)
    (hs₃ : ¬ s <+: splitPath (snapshotDir baseDir jobId now))
    (hs₄ : ¬ splitPath (snapshotDir baseDir jobId now) <+: s) :
    Fs.WritesOutside s fs (createSnapshot fs baseDir jobId sourcePath now).2 := by
  cases hc : (createSnapshot fs baseDir jobId sourcePath now).1.isConsistent
  · rw [createSnapshot_of_dir hsrc hsep] at hc ⊢
    dsimp only at hc ⊢
    rw [snapshotDirectory_of_fail hc]
    exact Fs.writesOutside_mkdirP _ _ _ _
  · exact Fs.writesOutside_createSnapshot hsrc hwf hsep hs₁ hs₂ hs₃ hs₄ Prod.mk.eta.symm hc

/-- A restore into a destination apart from `s` writes outside `s`. -/
theorem writesOutside_restoreJob {s : Path} {dest : String} (hd₁ : ¬ s <+: splitPath dest)
    (hd₂ : ¬ splitPath dest <+: s) (c : Codec) (index : ChunkIndex) (db : Db) (fs : Fs)
    (jobId : Int) : Fs.WritesOutside s fs (RestoreEngine.restoreJob c index db fs jobId dest).2 :=
  RestoreEngine.rel_restoreJob (Fs.WritesOutside s) (Fs.WritesOutside.refl s)
    (fun h h' => h.trans h') (fun fs q => Fs.writesOutside_mkdirP s fs [] q)
    (fun _ _ _ _ hp h => Fs.writesOutside_writeFile h fun hs =>
      (List.prefix_or_prefix_of_prefix hs hp).elim hd₁ hd₂) c index db fs jobId

/-! ### The invariant -/

section Kept

variable (c : Codec) (S : String) (j : Int) (J : BackupJob) (key : Bytes32) (W : List Bytes)
  (ms : List FileManifest)

/-- What `restore_job` of job `j` reads, as its run left it: the tables record the job, each
window of `W` has a row, and the store `S` is sound for them under the job's settings. -/
structure Kept (db : Db) (fs : Fs) : Prop where
  records : db.RecordsJob j J key ms
  rows : ∀ w ∈ W, db.chunkExists (c.hashHex w) = true
  sound : Sound c S J.compression J.encrypt key W db fs

variable {c S j J key W ms} {db db' : Db} {fs fs' : Fs}

theorem Kept.of_agrees (h : Kept c S j J key W ms db fs) (ha : db.Agrees j db')
    (hc : db'.chunks = db.chunks) : Kept c S j J key W ms db' fs :=
  ⟨h.records.of_agrees ha, fun w hw => by simpa only [Db.chunkExists, hc] using h.rows w hw,
    h.sound.of_chunks hc⟩

theorem Kept.of_writesOutside (h : Kept c S j J key W ms db fs)
    (hw : Fs.WritesOutside (splitPath S) fs fs') : Kept c S j J key W ms db fs' :=
  ⟨h.records, h.rows, h.sound.of_writesOutside hw⟩

/-- A metadata write that agrees on job `j` and keeps the chunk rows keeps the invariant. -/
theorem Kept.write {s : Sys} (h : Kept c S j J key W ms s.db s.fs) {env : Env} {call : Call}
    {f : Db → Bool → Bool × Db} (ha : ∀ ok, s.db.Agrees j (f s.db ok).2)
    (hc : ∀ ok, (f s.db ok).2.chunks = s.db.chunks) :
    Kept c S j J key W ms (s.write env call f).2.db (s.write env call f).2.fs :=
  h.of_agrees (ha _) (hc _)

/-- A chunk written at a hash with no row, and given a row, keeps the invariant: each window of
`W` has a row, so the hash is none of theirs. -/
theorem Kept.storeChunk (h : Kept c S j J key W ms db fs) {c' : Codec} {x data : Bytes}
    (hx : db.chunkExists (c'.hashHex x) = false)
    (hwr : (fs.mkdirPath (dirnameOf (getChunkPath S (c'.hashHex x)))).writeFile
      (splitPath (getChunkPath S (c'.hashHex x))) data = some fs')
    (p : String) (o st : Nat) (cmp : CompressionType) (e ok : Bool) :
    Kept c S j J key W ms (db.storeChunk (c'.hashHex x) p o st cmp e ok).2 fs' := by
  have hne : ∀ w ∈ W, c.hashHex w ≠ c'.hashHex x := fun w hw he => by
    rw [← he, h.rows w hw] at hx; cases hx
  exact ⟨h.records.of_agrees (Db.agrees_storeChunk ..), fun w hw => by simp [h.rows w hw],
    (Fs.writesOutside_mkdirP _ _ _ _ h.sound.owned).1.writeFile hwr, fun w hw hex =>
      h.sound.decodes_of_write hwr hw (hne w hw) (Db.chunks_storeChunk_of_ne _ (hne w hw) ..) hex⟩

/-- A step of `store_file`'s loop, of any run, with any settings, key and codec, keeps the
invariant, whatever its calls return. -/
theorem Kept.chunkStep {l : Loop} (h : Kept c S j J key W ms l.sys.db l.sys.fs) (env : Env)
    (comp : CompressionType) (encrypt : Bool) (key' : Bytes32) (x : Bytes) :
    let l' := ChunkStore.chunkStep env S comp encrypt key' l x
    Kept c S j J key W ms l'.sys.db l'.sys.fs := by
  dsimp only [ChunkStore.chunkStep]
  split
  · exact h
  · rename_i hne
    split
    · exact h
    · split
      · exact h.of_writesOutside (Fs.writesOutside_mkdirP _ _ _ _)
      · rename_i hwr
        exact h.storeChunk (by simpa using hne) hwr _ _ _ _ _ _

/-- `store_file` for another job keeps the invariant. -/
theorem Kept.storeFile {s : Sys} (h : Kept c S j J key W ms s.db s.fs) (env : Env)
    (filePath : String) (comp : CompressionType) (encrypt : Bool) (key' : Bytes32) {jobId : Int}
    (hid : jobId ≠ j) (rel : String) :
    let r := ChunkStore.storeFile env S s filePath comp encrypt key' jobId rel
    Kept c S j J key W ms r.2.db r.2.fs := by
  dsimp only [ChunkStore.storeFile]
  split
  · exact h
  · split
    · exact h
    · rename_i data _
      have hl := foldl_rel (fun x y : Loop => Kept c S j J key W ms x.sys.db x.sys.fs →
          Kept c S j J key W ms y.sys.db y.sys.fs) (fun _ => id) (fun h₁ h₂ => h₂ ∘ h₁) _
        (fun l x hk => hk.chunkStep env comp encrypt key' x) (windows data) ⟨[], 0, 0, s⟩ h
      dsimp only
      exact hl.write (fun _ => Db.agrees_storeFileManifest hid ..) (fun _ => by simp)

end Kept

section Run

variable {c : Codec} {j : Int} {J : BackupJob} {key : Bytes32} {W : List Bytes}
  {ms : List FileManifest} {env : Env} {dataDir : String} {job : BackupJob} {key' : Bytes32}

theorem Kept.storeFiles {snap : SnapshotInfo} {s : Sys}
    (h : Kept c (storageDir dataDir) j J key W ms s.db s.fs) (hid : job.jobId ≠ j) :
    let t := Worker.storeFiles env dataDir job key' snap s
    Kept c (storageDir dataDir) j J key W ms t.sys.db t.sys.fs :=
  foldl_rel (fun x y : Worker.Tally => Kept c (storageDir dataDir) j J key W ms x.sys.db x.sys.fs →
      Kept c (storageDir dataDir) j J key W ms y.sys.db y.sys.fs) (fun _ => id)
    (fun h₁ h₂ => h₂ ∘ h₁) _
    (fun t f hk => by
      dsimp only [Worker.fileStep]
      split
      · exact hk
      · exact hk.storeFile env _ _ _ _ hid _) _ _ h

theorem Kept.finishWrites {t : Worker.Tally} (h : Kept c (storageDir dataDir) j J key W ms t.sys.db t.sys.fs)
    (hid : job.jobId ≠ j) :
    Kept c (storageDir dataDir) j J key W ms (Worker.finishWrites env job key' t).db
      (Worker.finishWrites env job key' t).fs := by
  unfold Worker.finishWrites
  dsimp only
  refine Kept.write (Kept.write ?_ (fun _ => Db.agrees_updateJobStats hid ..) (fun _ => by simp))
    (fun _ => Db.agrees_updateJobStatus hid ..) (fun _ => by simp)
  split
  · exact h.write (fun _ => Db.agrees_storeEncryptionKey hid ..) (fun _ => by simp)
  · exact h

/-- A run of `execute` of another job, over a well-formed source directory apart from the data
directory, with any codec, settings and key, whatever its calls return, keeps the invariant: its
writes of job rows and keys are its own job's, its chunks are new, and its snapshot and its
removal lie outside the store. -/
theorem Kept.execute {now : Nat} {s : Sys} {es : List (String × Node)}
    (h : Kept c (storageDir dataDir) j J key W ms s.db s.fs) (hid : job.jobId ≠ j)
    (hsrc : s.fs.lookup (splitPath job.sourcePath) = some (.dir es)) (hwf : Node.WfOf es)
    (hsd₁ : ¬ splitPath dataDir <+: splitPath job.sourcePath)
    (hsd₂ : ¬ splitPath job.sourcePath <+: splitPath dataDir) :
    let r := Worker.execute env dataDir now job key' s
    Kept c (storageDir dataDir) j J key W ms r.2.db r.2.fs := by
  obtain ⟨hs₁, hs₂⟩ := apart_storageDir hsd₁ hsd₂
  have hsep := not_prefix_snapshotDir hsd₁ hsd₂ job.jobId now
  obtain ⟨ha₁, ha₂⟩ := Worker.storage_apart_snapshot dataDir job.jobId now
  have hw := Fs.writesOutside_createSnapshot_dir hsrc hwf hsep hs₁ hs₂ ha₁ ha₂
  have hp := createSnapshot_snapshotPath s.fs (snapshotsDir dataDir) job.jobId job.sourcePath now
  have h₀ : Kept c (storageDir dataDir) j J key W ms (Worker.running env job s).db s.fs :=
    h.write (fun _ => Db.agrees_updateJobStatus hid ..) (fun _ => by simp)
  dsimp only
  rw [Worker.execute_eq]
  generalize createSnapshot s.fs (snapshotsDir dataDir) job.jobId job.sourcePath now = snap at hw hp
  have h₁ : Kept c (storageDir dataDir) j J key W ms { Worker.running env job s with fs := snap.2 }.db
      { Worker.running env job s with fs := snap.2 }.fs := h₀.of_writesOutside hw
  unfold Worker.fromSnapshot
  dsimp only
  split
  · exact h₁.of_agrees (Db.agrees_updateJobStatus hid ..) (by simp)
  · refine ((h₁.storeFiles hid).finishWrites hid).of_writesOutside ?_
    rw [Worker.finishWrites_fs]
    exact Fs.writesOutside_removeSnapshot _ (hp ▸ ha₂) (hp ▸ ha₁)

end Run

/-! ### Every later run -/

/-- A step of the process, after job `j`'s run, that leaves job `j` alone: a submission, a status
change of another job, a run of another job over a well-formed source directory apart from the
data directory (with any codec, settings and key, whatever its metadata writes return), or a
restore of any job, whatever the cache holds, into a destination apart from the chunk store that
the kernel resolves as the model does (`Fs.LinkFree`). The kernel reads each source and
destination from the data directory's base (`SameBase`). -/
inductive Later (dataDir : String) (j : Int) : Sys → Sys → Prop
  | submit (s : Sys) (job : BackupJob) (now : Nat) (ok : Bool) :
      Later dataDir j s { s with db := (s.db.createJob job now ok).2 }
  | setStatus (s : Sys) (id : Int) (st : JobStatus) (e : String) (ok : Bool) (hid : id ≠ j) :
      Later dataDir j s { s with db := (s.db.updateJobStatus id st e ok).2 }
  | execute (s : Sys) (env : Env) (now : Nat) (job : BackupJob) (key : Bytes32)
      (es : List (String × Node)) (hid : job.jobId ≠ j)
      (hsrc : s.fs.lookup (splitPath job.sourcePath) = some (.dir es)) (hwf : Node.WfOf es)
      (hsd₁ : ¬ splitPath dataDir <+: splitPath job.sourcePath)
      (hsd₂ : ¬ splitPath job.sourcePath <+: splitPath dataDir)
      (hbase : SameBase dataDir job.sourcePath) :
      Later dataDir j s (Worker.execute env dataDir now job key s).2
  | restore (s : Sys) (c : Codec) (index : ChunkIndex) (jobId : Int) (dest : String)
      (hd₁ : ¬ splitPath (storageDir dataDir) <+: splitPath dest)
      (hd₂ : ¬ splitPath dest <+: splitPath (storageDir dataDir))
      (hdest : s.fs.LinkFree (splitPath dest)) (hbase : SameBase dataDir dest) :
      Later dataDir j s { s with fs := (RestoreEngine.restoreJob c index s.db s.fs jobId dest).2 }

section Later

variable {c : Codec} {dataDir : String} {j : Int} {J : BackupJob} {key : Bytes32}
  {W : List Bytes} {ms : List FileManifest} {s s' : Sys}

/-- Each such step is a step of the process. -/
theorem Later.step (h : Later dataDir j s s') : Step dataDir s s' := by
  cases h with
  | submit => exact .submit ..
  | setStatus => exact .setStatus ..
  | execute => exact .execute ..
  | restore c index jobId dest _ _ hdest => exact .restore _ c index jobId dest hdest

theorem Kept.later (h : Kept c (storageDir dataDir) j J key W ms s.db s.fs)
    (hs : Later dataDir j s s') : Kept c (storageDir dataDir) j J key W ms s'.db s'.fs := by
  cases hs with
  | submit job now ok => exact h.of_agrees (Db.agrees_createJob _ h.records.below ..) (by simp)
  | setStatus id st e ok hid => exact h.of_agrees (Db.agrees_updateJobStatus hid ..) (by simp)
  | execute env now job key' es hid hsrc hwf hsd₁ hsd₂ =>
    exact h.execute hid hsrc hwf hsd₁ hsd₂
  | restore c' index jobId dest hd₁ hd₂ =>
    exact h.of_writesOutside (writesOutside_restoreJob hd₁ hd₂ c' index s.db s.fs jobId)

theorem Kept.of_later (h : Kept c (storageDir dataDir) j J key W ms s.db s.fs)
    (hr : Relation.ReflTransGen (Later dataDir j) s s') :
    Kept c (storageDir dataDir) j J key W ms s'.db s'.fs := by
  induction hr with
  | refl => exact h
  | tail _ hs ih => exact ih.later hs

end Later

/-! ### The restore, after any later run -/

/-- From a state that keeps job `j` recorded for the files of a well-formed tree `es` with bytes
`B`, under a `COMPLETED` row, `restore_job` of the job through any cache of the store, into a
fresh destination apart from the store, succeeds, counts every file and puts back each file's
bytes. -/
theorem Kept.restoreJob {c : Codec} {index : ChunkIndex} {S dest : String} {j : Int}
    {J : BackupJob} {key : Bytes32} {W : List Bytes} {ms : List FileManifest} {db : Db} {fs : Fs}
    {es : List (String × Node)} {B : Nat → Bytes} (h : Kept c S j J key W ms db fs)
    (hidx : index.InStore S) (hst : J.status = .completed)
    (hwf : Node.WfOf es)
    (hms : List.Forall₂ (fun m x => Recorded c m x.1 (B x.2)) ms (Node.filesOf es))
    (hW : ∀ x ∈ Node.filesOf es, ∀ w ∈ windows (B x.2), w ∈ W)
    (hfresh : fs.Fresh (splitPath dest)) (hd₁ : ¬ splitPath S <+: splitPath dest)
    (hd₂ : ¬ splitPath dest <+: splitPath S) :
    let r := RestoreEngine.restoreJob c index db fs j dest
    r.1.success = true ∧ r.1.filesRestored = (Node.filesOf es).length ∧
      ∀ x ∈ Node.filesOf es, r.2.readFile (splitPath dest ++ x.1) = some (B x.2) :=
  RestoreEngine.restoreJob_recorded hidx h.records.row hst h.records.keyHex hwf
    (h.records.manifests ▸ hms) hW (fun x hx w hw => h.rows w (hW x hx w hw)) h.sound hfresh hd₁ hd₂

namespace Worker

theorem execute_nextJobId (env : Env) (dataDir : String) (now : Nat) (job : BackupJob)
    (key : Bytes32) (s : Sys) : (execute env dataDir now job key s).2.db.nextJobId = s.db.nextJobId := by
  rw [execute_eq]
  unfold fromSnapshot
  dsimp only
  split
  · simp
  · rw [finishWrites_nextJobId, (sameJobs_storeFiles ..).2]
    simp

/-- A run of `execute` without a failed call, as in `execute_restoreJob`, leaves its job
`COMPLETED` and recorded with the manifests of its source's files, each window of which has a row
in a store sound for them. -/
theorem execute_kept {env : Env} {dataDir : String} {now : Nat} {job : BackupJob} {key : Bytes32}
    {s : Sys} {es : List (String × Node)} {W : List Bytes}
    (hc : env.codec.Lawful) (hinj : Set.InjOn env.codec.hashHex {w | w ∈ W})
    (hsrc : s.fs.lookup (splitPath job.sourcePath) = some (.dir es)) (hwf : Node.WfOf es)
    (hW : ∀ x ∈ Node.filesOf es, ∀ w ∈ windows (s.fs.inodes x.2), w ∈ W)
    (hsound : Sound env.codec (storageDir dataDir) job.compression job.encrypt key W s.db s.fs)
    (hids : s.db.ManifestIdsBelow) (hjobs : s.db.IdsBelow)
    (hrow : s.db.getJob job.jobId = some job) (hnew : s.db.getFileManifests job.jobId = [])
    (hsd₁ : ¬ splitPath dataDir <+: splitPath job.sourcePath)
    (hsd₂ : ¬ splitPath job.sourcePath <+: splitPath dataDir)
    (hcl : (execute env dataDir now job key s).2.failed = s.failed) :
    let r := execute env dataDir now job key s
    ∃ J ms, J.status = .completed ∧
      List.Forall₂ (fun m x => Recorded env.codec m x.1 (s.fs.inodes x.2)) ms (Node.filesOf es) ∧
      Kept env.codec (storageDir dataDir) job.jobId J key
        ((Node.filesOf es).flatMap fun x => windows (s.fs.inodes x.2)) ms r.2.db r.2.fs := by
  obtain ⟨hs₁, hs₂⟩ := apart_storageDir hsd₁ hsd₂
  have hsep := not_prefix_snapshotDir hsd₁ hsd₂ job.jobId now
  obtain ⟨hsound', hids', ms, hms, hget⟩ :=
    execute_recorded hc hinj hsrc hwf hW hsound hids hs₁ hs₂ hsep hcl
  obtain ⟨J, hrow', hst, hcomp, henc, hkey⟩ := execute_completed hrow hcl
  have hcov := covers_execute hsrc hwf hsound.owned.confined hs₁ hs₂ hsep hcl
  rw [hnew, List.nil_append] at hget
  have hbelow : job.jobId < s.db.nextJobId :=
    (hjobs.below _ (by rw [show s.db.jobs job.jobId = some job from hrow]; simp)).2
  refine ⟨J, ms, hst, hms, ⟨⟨hrow', fun he => hkey (henc ▸ he), hget, hids', ?_⟩, ?_, ?_⟩⟩
  · rwa [execute_nextJobId]
  · intro w hw
    obtain ⟨x, hx, hw⟩ := List.mem_flatMap.1 hw
    exact hcov x hx w hw
  · refine (hcomp ▸ henc ▸ hsound').mono fun w hw => ?_
    obtain ⟨x, hx, hw⟩ := List.mem_flatMap.1 hw
    exact hW x hx w hw

end Worker

/-- A completed backup stays restorable. Let a process whose libraries meet their specifications
run `execute` without a failed call, as in `execute_restoreJob`, from a database whose job ids are
below the next one; and let it go on with any steps that leave the job alone: submissions, status
changes of other jobs, runs of other jobs over well-formed sources apart from the data directory
(with any codec, settings and key, whatever their calls return), and restores into destinations
apart from the chunk store. Let the data directory, and every destination a restore writes to,
have no `..` component and no symbolic link on the way, at or below them, and let the kernel read
every source and destination from the data directory's base (`_hdata`, `_hdest`, `_hbase`,
`Later`: there the kernel resolves each path as the model does). Then `restore_job` of
the job, through any cache of chunk paths of the store, into a fresh destination apart from the
store succeeds, counts every file of the source, and puts each regular file of the source, with
the bytes it had when it was backed up, at the same place below the destination. -/
theorem execute_later_restoreJob {env : Env} {dataDir dest : String} {now : Nat} {job : BackupJob}
    {key : Bytes32} {s s' : Sys} {es : List (String × Node)} {W : List Bytes}
    {index : ChunkIndex}
    (hc : env.codec.Lawful) (hinj : Set.InjOn env.codec.hashHex {w | w ∈ W})
    (hsrc : s.fs.lookup (splitPath job.sourcePath) = some (.dir es)) (hwf : Node.WfOf es)
    (hW : ∀ x ∈ Node.filesOf es, ∀ w ∈ windows (s.fs.inodes x.2), w ∈ W)
    (hsound : Sound env.codec (storageDir dataDir) job.compression job.encrypt key W s.db s.fs)
    (hids : s.db.ManifestIdsBelow) (hjobs : s.db.IdsBelow)
    (hrow : s.db.getJob job.jobId = some job) (hnew : s.db.getFileManifests job.jobId = [])
    (hsd₁ : ¬ splitPath dataDir <+: splitPath job.sourcePath)
    (hsd₂ : ¬ splitPath job.sourcePath <+: splitPath dataDir)
    (hcl : (Worker.execute env dataDir now job key s).2.failed = s.failed)
    (hlater : Relation.ReflTransGen (Later dataDir job.jobId)
      (Worker.execute env dataDir now job key s).2 s')
    (hfresh : s'.fs.Fresh (splitPath dest))
    (hd₁ : ¬ splitPath (storageDir dataDir) <+: splitPath dest)
    (hd₂ : ¬ splitPath dest <+: splitPath (storageDir dataDir))
    (_hdata : s.fs.LinkFree (splitPath dataDir)) (_hdest : s'.fs.LinkFree (splitPath dest))
    (_hbase : SameBase dataDir dest ∧ SameBase dataDir job.sourcePath)
    (hidx : index.InStore (storageDir dataDir)) :
    let r := RestoreEngine.restoreJob env.codec index s'.db s'.fs job.jobId dest
    r.1.success = true ∧ r.1.filesRestored = (Node.filesOf es).length ∧
      ∀ t b, s.fs.readFile (splitPath job.sourcePath ++ t) = some b →
        r.2.readFile (splitPath dest ++ t) = some b := by
  obtain ⟨J, ms, hst, hms, hk⟩ :=
    Worker.execute_kept hc hinj hsrc hwf hW hsound hids hjobs hrow hnew hsd₁ hsd₂ hcl
  obtain ⟨hsucc, hcount, hfiles⟩ := (hk.of_later hlater).restoreJob hidx hst hwf hms
    (fun x hx w hw => List.mem_flatMap.2 ⟨x, hx, hw⟩) hfresh hd₁ hd₂
  exact ⟨hsucc, hcount, fun t b hb => Fs.readFile_of_filesOf hsrc hfiles hb⟩

/-- Job 1 of `pairStart`, backed up under `/var` by a process none of whose calls fails, still
restores `/data` below `/restore`, in a process that has stored nothing, after job 2 has run over
`/data` with another key. -/
theorem pair_restores_after_rerun :
    let s' := (Worker.execute (Env.reliable Codec.transparent) "/var" 6 (dataJob 2) secondKey
      firstRun.2).2
    let r := RestoreEngine.restoreJob Codec.transparent .empty s'.db s'.fs 1 "/restore"
    r.1.success = true ∧ r.1.filesRestored = (Node.filesOf [("a", .file 0), ("b", .file 1)]).length ∧
      ∀ t b, pairStart.fs.readFile (splitPath "/data" ++ t) = some b →
        r.2.readFile (splitPath "/restore" ++ t) = some b :=
  @execute_later_restoreJob (Env.reliable Codec.transparent) "/var" "/restore" 5 (dataJob 1)
    Bytes32.zero pairStart
    (Worker.execute (Env.reliable Codec.transparent) "/var" 6 (dataJob 2) secondKey firstRun.2).2
    [("a", .file 0), ("b", .file 1)] [[7], [8, 9]] .empty Codec.transparent_lawful
    (fun x hx y hy h => by
      simp only [Set.mem_setOf_eq, List.mem_cons, List.mem_singleton, List.not_mem_nil,
        or_false] at hx hy
      rcases hx with rfl | rfl <;> rcases hy with rfl | rfl <;>
        first | rfl | exact absurd h (by decide))
    rfl ⟨by decide, by decide, trivial, by decide, by decide, trivial, trivial⟩ (by decide)
    (ChunkStore.sound_of_no_chunks (fun _ => rfl) (Fs.owned_of_files (by decide)))
    ⟨by decide, by decide⟩ ((Db.idsBelow_empty.createJob _ _ _).createJob _ _ _) rfl rfl
    (by decide) (by decide) (by decide)
    (.single (Later.execute _ _ _ _ _ [("a", .file 0), ("b", .file 1)] (by decide) rfl
      ⟨by decide, by decide, trivial, by decide, by decide, trivial, trivial⟩ (by decide) (by decide)
      (by decide)))
    (Fs.fresh_of_parent rfl rfl) (by decide) (by decide) (by decide) (by decide) (by decide)
    (ChunkStore.ChunkIndex.inStore_empty _)

end FileBackup
