import FileBackup.RoundTrip.Job

/-!
# What `verify_backup` can find missing

`RestoreEngine::verify_backup` checks each chunk of a completed job twice: for a row
(`get_chunk_meta`), and for a file at the row's `storage_path` (`stat`). The second check never
fails in a process that started from a store with no chunk row. `store_file` writes a row only
after writing its chunk file below the store, and no step of the program removes an entry there:
a snapshot is made and removed apart from the store, and a restore only makes directories and
writes files. So in every state such a process reaches, `verify_backup` of a job is true exactly
when the job is `COMPLETED` and every chunk its manifests name has a row
(`verifyBackup_of_reachable`). This holds whatever the metadata writes returned along the way.

* `Db.OnDisk S`: every chunk row names a non-empty path below the store `S` at which there is an
  entry. `store_chunk` of a written path keeps it (`OnDisk.storeChunk`).
* `Fs.KeepsEntries` along a run: the chunk loop, the snapshot and its removal, the restore.
* `Step`: a submission, a status change, a run of `execute` with any results of its metadata
  writes, or a restore, in one data directory; `onDisk_of_reachable` is the invariant over runs.
-/

namespace FileBackup

/-- Every chunk row names a non-empty `storage_path` below the store's directory `S`, at which
the filesystem has an entry. -/
def Db.OnDisk (S : String) (db : Db) (fs : Fs) : Prop :=
  ∀ h row, db.chunks h = some row → row.storagePath ≠ "" ∧
    splitPath S <+: splitPath row.storagePath ∧ (fs.lookup (splitPath row.storagePath)).isSome

namespace Db

variable {S : String} {db db' : Db} {fs fs' : Fs}

theorem onDisk_of_no_chunks (h : ∀ hash, db.chunks hash = none) (fs : Fs) : db.OnDisk S fs :=
  fun hash row hr => by rw [h hash] at hr; cases hr

/-- The invariant reads the chunk rows and the entries below the store only. -/
theorem OnDisk.of_keeps (h : db.OnDisk S fs) (hc : db'.chunks = db.chunks)
    (hk : Fs.KeepsEntries (splitPath S) fs fs') : db'.OnDisk S fs' := fun hash row hr => by
  rw [hc] at hr
  obtain ⟨hne, hs, hl⟩ := h hash row hr
  exact ⟨hne, hs, hk _ hs hl⟩

/-- `store_chunk` of a path below the store at which there is an entry keeps the invariant: a
new row names that path, and an existing row keeps its own. -/
theorem OnDisk.storeChunk (h : db.OnDisk S fs) {hash path : String} (hne : path ≠ "")
    (hs : splitPath S <+: splitPath path) (hl : (fs.lookup (splitPath path)).isSome)
    (o st : Nat) (c : CompressionType) (e ok : Bool) :
    (db.storeChunk hash path o st c e ok).2.OnDisk S fs := by
  unfold Db.storeChunk
  split
  · intro h' row hr
    dsimp only at hr
    by_cases he : h' = hash
    · subst he
      simp only [Function.update_same, Option.some.injEq] at hr
      subst hr
      cases hc : db.chunks h' with
      | none => exact ⟨hne, hs, hl⟩
      | some row => exact h h' row hc
    · rw [Function.update_noteq he] at hr
      exact h h' row hr
  · exact h

/-- Under the invariant, `verify_backup` of a job is true exactly when the job is `COMPLETED`
and every chunk of its manifests has a row. -/
theorem verifyBackup_of_onDisk (h : db.OnDisk S fs) (jobId : Int) :
    RestoreEngine.verifyBackup db fs jobId = true ↔
      (∃ J, db.getJob jobId = some J ∧ J.status = .completed) ∧
        ∀ m ∈ db.getFileManifests jobId, ∀ ci ∈ m.chunks, db.chunkExists ci.hash = true := by
  unfold RestoreEngine.verifyBackup
  cases hj : db.getJob jobId with
  | none => simp
  | some J =>
    by_cases hst : J.status = .completed
    · simp only [hst, ne_eq, not_true_eq_false, ↓reduceIte, List.all_eq_true, Option.some.injEq,
        exists_eq_left', true_and]
      refine forall₂_congr fun m _ => forall₂_congr fun ci _ => ?_
      unfold getChunkMeta chunkExists
      cases hc : db.chunks ci.hash with
      | none => simp
      | some row =>
        obtain ⟨hne, -, hl⟩ := h _ row hc
        simp [hne, hl]
    · simp [hst]

end Db

/-! ### A run keeps the chunk files -/

namespace ChunkStore

variable {env : Env} {storageDir : String} {comp : CompressionType} {encrypt : Bool}
  {key : Bytes32}

theorem onDisk_chunkStep {l : Loop} (w : Bytes) (h : l.sys.db.OnDisk storageDir l.sys.fs) :
    let l' := chunkStep env storageDir comp encrypt key l w
    l'.sys.db.OnDisk storageDir l'.sys.fs := by
  dsimp only [chunkStep]
  split
  · exact h
  · split
    · exact h
    · split
      · exact h.of_keeps rfl (Fs.keepsEntries_mkdirP _ _ _ _)
      · rename_i fs' hfs
        obtain ⟨i, hi, -⟩ := Fs.readFile_eq_some.1 (Fs.readFile_writeFile hfs)
        have h' : l.sys.db.OnDisk storageDir fs' := h.of_keeps rfl
          ((Fs.keepsEntries_mkdirP _ _ _ _).trans (Fs.keepsEntries_writeFile hfs))
        exact h'.storeChunk (getChunkPath_ne_empty storageDir env.codec w)
          (prefix_getChunkPath storageDir _) (by rw [hi]; rfl) _ _ _ _ _

theorem onDisk_storeFile {s : Sys} {filePath : String} {jobId : Int} {rel : String}
    (h : s.db.OnDisk storageDir s.fs) :
    let r := storeFile env storageDir s filePath comp encrypt key jobId rel
    r.2.db.OnDisk storageDir r.2.fs := by
  dsimp only [storeFile]
  split
  · exact h
  · split
    · exact h
    · rename_i data _
      have hl := foldl_rel (fun x y : Loop => x.sys.db.OnDisk storageDir x.sys.fs →
          y.sys.db.OnDisk storageDir y.sys.fs) (fun _ => id) (fun h₁ h₂ => h₂ ∘ h₁) _
        (fun l w => @onDisk_chunkStep env storageDir comp encrypt key l w) (windows data) ⟨[], 0, 0, s⟩ h
      exact hl.of_keeps (by simp) (.refl _ _)

end ChunkStore

theorem keepsEntries_snapshotDirectory {s : Path} (fs : Fs) (es : List (String × Node))
    {dst : Path} (h₁ : ¬ dst <+: s) (h₂ : ¬ s <+: dst) :
    Fs.KeepsEntries s fs (snapshotDirectory fs es dst).2 := by
  unfold snapshotDirectory
  split
  · rename_i name hname
    split
    · rename_i r hr
      rw [← List.dropLast_append_getLast? name hname] at h₁ h₂
      exact Fs.keepsEntries_of_put hr h₁ h₂
    · exact .refl _ _
  · exact .refl _ _

theorem keepsEntries_copyFile (s : Path) (fs : Fs) (src dst : Path) :
    Fs.KeepsEntries s fs (copyFile fs src dst).2 := by
  unfold copyFile
  split
  · exact .refl _ _
  · rename_i _ h₁
    split
    · exact Fs.keepsEntries_writeFile h₁
    · split
      · rename_i _ h₂
        exact (Fs.keepsEntries_writeFile h₁).trans (Fs.keepsEntries_writeFile h₂)
      · exact Fs.keepsEntries_writeFile h₁

/-- A snapshot apart from `s` keeps the entries below `s`. -/
theorem keepsEntries_createSnapshot {s : Path} (fs : Fs) (baseDir : String) (jobId : Int)
    (sourcePath : String) (now : Nat) (h₁ : ¬ splitPath (snapshotDir baseDir jobId now) <+: s)
    (h₂ : ¬ s <+: splitPath (snapshotDir baseDir jobId now)) :
    Fs.KeepsEntries s fs (createSnapshot fs baseDir jobId sourcePath now).2 := by
  have h₀ := Fs.keepsEntries_mkdirP s fs [] (splitPath (snapshotDir baseDir jobId now))
  unfold createSnapshot
  dsimp only
  split
  · exact h₀
  · exact h₀.trans (keepsEntries_snapshotDirectory _ _ h₁ h₂)
  · exact h₀.trans (keepsEntries_copyFile _ _ _ _)

theorem keepsEntries_removeSnapshot {s : Path} (fs : Fs) {info : SnapshotInfo}
    (h₁ : ¬ splitPath info.snapshotPath <+: s) (h₂ : ¬ s <+: splitPath info.snapshotPath) :
    Fs.KeepsEntries s fs (removeSnapshot fs info) := by
  unfold removeSnapshot
  split
  · exact .refl _ _
  · exact Fs.keepsEntries_removeRecursive h₁ h₂

namespace Worker

variable {env : Env} {dataDir : String} {job : BackupJob} {key : Bytes32}

theorem onDisk_fileStep {base : String} {t : Tally} {f : String}
    (h : t.sys.db.OnDisk (storageDir dataDir) t.sys.fs) :
    let t' := fileStep env dataDir job key base t f
    t'.sys.db.OnDisk (storageDir dataDir) t'.sys.fs := by
  dsimp only [fileStep]
  split
  · exact h
  · exact ChunkStore.onDisk_storeFile h

theorem onDisk_storeFiles {snap : SnapshotInfo} {s : Sys}
    (h : s.db.OnDisk (storageDir dataDir) s.fs) :
    let t := storeFiles env dataDir job key snap s
    t.sys.db.OnDisk (storageDir dataDir) t.sys.fs :=
  ChunkStore.foldl_rel (fun x y : Tally => x.sys.db.OnDisk (storageDir dataDir) x.sys.fs →
      y.sys.db.OnDisk (storageDir dataDir) y.sys.fs) (fun _ => id) (fun h₁ h₂ => h₂ ∘ h₁) _
    (fun _ _ => onDisk_fileStep) _ _ h

/-- A run of `execute`, whatever its calls return, keeps every chunk row's file: its chunk
writes lie below the store, and its snapshot apart from it. -/
theorem onDisk_execute {now : Nat} {s : Sys} (h : s.db.OnDisk (storageDir dataDir) s.fs) :
    let r := execute env dataDir now job key s
    r.2.db.OnDisk (storageDir dataDir) r.2.fs := by
  obtain ⟨ha₁, ha₂⟩ := storage_apart_snapshot dataDir job.jobId now
  have hk := keepsEntries_createSnapshot s.fs (snapshotsDir dataDir) job.jobId job.sourcePath now
    ha₂ ha₁
  have hp := createSnapshot_snapshotPath s.fs (snapshotsDir dataDir) job.jobId job.sourcePath now
  have h₀ : (running env job s).db.OnDisk (storageDir dataDir) s.fs := h.of_keeps (by simp) (.refl _ _)
  dsimp only
  rw [execute_eq]
  generalize createSnapshot s.fs (snapshotsDir dataDir) job.jobId job.sourcePath now = snap at hk hp
  have h₁ : (running env job s).db.OnDisk (storageDir dataDir) snap.2 := h₀.of_keeps rfl hk
  unfold fromSnapshot
  dsimp only
  split
  · exact h₁.of_keeps (by simp) (.refl _ _)
  · have hl := @onDisk_storeFiles env dataDir job key snap.1
      { running env job s with fs := snap.2 } h₁
    refine hl.of_keeps (finishWrites_chunks ..) ?_
    rw [finishWrites_fs]
    exact keepsEntries_removeSnapshot _ (hp ▸ ha₂) (hp ▸ ha₁)

end Worker

namespace RestoreEngine

section Frame

variable (R : Fs → Fs → Prop) (hrefl : ∀ fs, R fs fs) (htrans : ∀ {a b c}, R a b → R b c → R a c)
  (hmk : ∀ fs q, R fs (fs.mkdirP [] q)) {dest : String}
  (hw : ∀ fs fs' p data, splitPath dest <+: p → fs.writeFile p data = some fs' → R fs fs')
include hrefl htrans hmk hw

/-- A relation between filesystems that holds across `mkdir_p` and across every write below
`dest` holds across a step of the restore loop into `dest`. -/
theorem rel_restoreStep (c : Codec) (index : ChunkStore.ChunkIndex) (db : Db) (job : BackupJob)
    (key : Bytes32) (acc : RestoreResult × Fs) (m : FileManifest) :
    R acc.2 (restoreStep c index db job key dest acc m).2 := by
  have hp : splitPath dest <+: splitPath (dest ++ "/" ++ m.filePath) := by
    rw [splitPath_append_slash]; exact List.prefix_append _ _
  have hf : ∀ fs₀, R fs₀ (ChunkStore.restoreFile c index db fs₀ m (dest ++ "/" ++ m.filePath)
      job.compression job.encrypt key).2 := fun fs₀ => by
    unfold ChunkStore.restoreFile
    dsimp only
    split
    · exact hmk _ _
    · rename_i fs₁ h₁
      refine htrans (htrans (hmk _ _) (hw _ _ _ _ hp h₁)) ?_
      cases h₂ : fs₁.writeFile (splitPath (dest ++ "/" ++ m.filePath)) _ with
      | none => exact hrefl _
      | some fs₂ => exact hw _ _ _ _ hp h₂
  have hk := htrans (hmk acc.2 (splitPath (dirnameOf (dest ++ "/" ++ m.filePath)))) (hf _)
  unfold restoreStep
  dsimp only
  split <;> exact hk

/-- Such a relation holds across a whole `restore_job` into `dest`. -/
theorem rel_restoreJob (c : Codec) (index : ChunkStore.ChunkIndex) (db : Db) (fs : Fs)
    (jobId : Int) : R fs (restoreJob c index db fs jobId dest).2 := by
  unfold restoreJob
  split
  · exact hrefl _
  · split
    · exact hrefl _
    · split
      · exact hrefl _
      · dsimp only
        split
        · exact hrefl _
        · exact htrans (hmk fs _) (ChunkStore.foldl_rel (fun x y : RestoreResult × Fs => R x.2 y.2)
            (fun _ => hrefl _) htrans _ (rel_restoreStep R hrefl htrans hmk hw c index db _ _) _
            ({}, fs.mkdirPath dest))

end Frame

/-- A restore only makes directories and writes files: it keeps every entry. -/
theorem keepsEntries_restoreJob (s : Path) (c : Codec) (index : ChunkStore.ChunkIndex) (db : Db)
    (fs : Fs) (jobId : Int) (dest : String) :
    Fs.KeepsEntries s fs (restoreJob c index db fs jobId dest).2 :=
  rel_restoreJob (Fs.KeepsEntries s) (.refl s) (fun h h' => h.trans h')
    (fun fs q => Fs.keepsEntries_mkdirP s fs [] q) (fun _ _ _ _ _ h => Fs.keepsEntries_writeFile h)
    c index db fs jobId

end RestoreEngine

/-! ### Every reachable state -/

/-- One step of a process whose data directory is `dataDir`: a job submitted, a status set, a
run of `execute` (whatever its metadata writes return), or a restore of a job, whatever the chunk
store's cache holds, into any destination the kernel resolves as the model does
(`Fs.LinkFree`). -/
inductive Step (dataDir : String) : Sys → Sys → Prop
  | submit (s : Sys) (job : BackupJob) (now : Nat) (ok : Bool) :
      Step dataDir s { s with db := (s.db.createJob job now ok).2 }
  | setStatus (s : Sys) (id : Int) (st : JobStatus) (e : String) (ok : Bool) :
      Step dataDir s { s with db := (s.db.updateJobStatus id st e ok).2 }
  | execute (s : Sys) (env : Env) (now : Nat) (job : BackupJob) (key : Bytes32) :
      Step dataDir s (Worker.execute env dataDir now job key s).2
  | restore (s : Sys) (c : Codec) (index : ChunkStore.ChunkIndex) (jobId : Int) (dest : String)
      (hdest : s.fs.LinkFree (splitPath dest)) :
      Step dataDir s { s with fs := (RestoreEngine.restoreJob c index s.db s.fs jobId dest).2 }

theorem onDisk_step {dataDir : String} {s s' : Sys} (h : s.db.OnDisk (storageDir dataDir) s.fs)
    (hs : Step dataDir s s') : s'.db.OnDisk (storageDir dataDir) s'.fs := by
  cases hs with
  | submit => exact h.of_keeps (by simp) (.refl _ _)
  | setStatus => exact h.of_keeps (by simp) (.refl _ _)
  | execute => exact Worker.onDisk_execute h
  | restore c index jobId dest =>
    exact h.of_keeps rfl (RestoreEngine.keepsEntries_restoreJob _ c index s.db s.fs jobId dest)

theorem onDisk_of_reachable {dataDir : String} {s s' : Sys}
    (h₀ : s.db.OnDisk (storageDir dataDir) s.fs) (h : Relation.ReflTransGen (Step dataDir) s s') :
    s'.db.OnDisk (storageDir dataDir) s'.fs := by
  induction h with
  | refl => exact h₀
  | tail _ hs ih => exact onDisk_step ih hs

/-- In every state that a process with data directory `dataDir` reaches from a store with no
chunk row, by submissions, status changes, runs of `execute` (whatever their metadata writes
return) and restores, `verify_backup` of a job is true exactly when the job is `COMPLETED` and
every chunk its manifests name has a row: it never finds a row without its file. The data
directory is a path the kernel resolves as the model does (`_hdata`), as is every destination a
restore writes to (`Step.restore`). -/
theorem verifyBackup_of_reachable {dataDir : String} {s s' : Sys}
    (h₀ : ∀ hash, s.db.chunks hash = none) (_hdata : s.fs.LinkFree (splitPath dataDir))
    (h : Relation.ReflTransGen (Step dataDir) s s')
    (jobId : Int) :
    RestoreEngine.verifyBackup s'.db s'.fs jobId = true ↔
      (∃ J, s'.db.getJob jobId = some J ∧ J.status = .completed) ∧
        ∀ m ∈ s'.db.getFileManifests jobId, ∀ ci ∈ m.chunks, s'.db.chunkExists ci.hash = true :=
  Db.verifyBackup_of_onDisk (onDisk_of_reachable (Db.onDisk_of_no_chunks h₀ s.fs) h) jobId

theorem verifyBackup_firstRun :
    RestoreEngine.verifyBackup firstRun.2.db firstRun.2.fs 1 = true ↔
      (∃ J, firstRun.2.db.getJob 1 = some J ∧ J.status = .completed) ∧
        ∀ m ∈ firstRun.2.db.getFileManifests 1, ∀ ci ∈ m.chunks, firstRun.2.db.chunkExists ci.hash = true :=
  verifyBackup_of_reachable (s := pairStart) (fun _ => rfl) (by decide) (.single (.execute _ _ _ _ _)) 1

end FileBackup
