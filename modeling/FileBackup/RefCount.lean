import FileBackup.Worker

/-!
# Reference counts (`Database::store_chunk`)

`store_chunk` adds one to a chunk's `ref_count` each time it is called, and `store_file` calls it
only for a window whose hash has no row yet: a deduplicated window gets its `file_chunks` row
and no call. So `ref_count` counts the rows naming the chunk that were stored, and not the
deduplicated ones.

* `Db.refCountOf`, `FileChunkRow.storedAs`, and the invariant `Db.RefsCounted`;
* its step lemmas: the loop of `store_file` keeps `LoopCounted` (the rows plus the manifest
  being built), then `store_file`, the file loop of `execute`, and `execute`;
* `CleanStep` (a submission, a status change, or a run without a failed call) and
  `refsCounted_of_reachable`: the invariant holds along every sequence of them;
* `dedup_rows_uncounted`: a job over two files with the same bytes ends with a row of
  `ref_count` 1 that two `file_chunks` rows name.
-/

namespace FileBackup

/-- The `ref_count` of `hash`'s row, `0` when there is none. -/
def Db.refCountOf (db : Db) (hash : String) : Nat := ((db.chunks hash).map (·.refCount)).getD 0

/-- Whether a `file_chunks` row names `hash` for a window that was stored, not deduplicated. -/
def FileChunkRow.storedAs (r : FileChunkRow) (hash : String) : Bool :=
  r.chunkHash == hash && !r.deduplicated

/-- Whether a chunk of a manifest names `hash` and was stored, not deduplicated. -/
def ChunkInfo.storedAs (c : ChunkInfo) (hash : String) : Bool :=
  c.hash == hash && !c.deduplicated

/-- Each chunk's `ref_count` is the number of `file_chunks` rows that name it and were stored. -/
def Db.RefsCounted (db : Db) : Prop :=
  ∀ hash, db.refCountOf hash = db.fileChunks.countP (·.storedAs hash)

namespace Db

theorem refsCounted_empty : empty.RefsCounted := fun _ => rfl

/-- The invariant reads the two chunk tables only. -/
theorem RefsCounted.congr {db db' : Db} (h : db.RefsCounted) (hc : db'.chunks = db.chunks)
    (hf : db'.fileChunks = db.fileChunks) : db'.RefsCounted := by
  intro hash
  simp only [refCountOf, hc, hf]
  exact h hash

theorem refCountOf_storeChunk (db : Db) (hash p : String) (o s : Nat) (c : CompressionType)
    (e : Bool) (h : String) :
    (db.storeChunk hash p o s c e true).2.refCountOf h = db.refCountOf h + if h = hash then 1 else 0 := by
  unfold storeChunk refCountOf
  by_cases hh : h = hash
  · subst hh
    rcases hc : db.chunks h with _ | row <;> simp [hc]
  · simp [Function.update_noteq hh, hh]

/-- The rows `store_file_manifest` adds for a manifest are stored exactly where its chunks were. -/
theorem countP_storeFileManifest {db : Db} {jobId : Int} {m : FileManifest} {ok : Bool}
    (h : (db.storeFileManifest jobId m ok).1 = true) (hash : String) :
    (db.storeFileManifest jobId m ok).2.fileChunks.countP (·.storedAs hash) =
      db.fileChunks.countP (·.storedAs hash) + m.chunks.countP (·.storedAs hash) := by
  unfold storeFileManifest at h ⊢
  split <;> simp_all [List.countP_append, List.countP_map, Function.comp_def,
    FileChunkRow.storedAs, ChunkInfo.storedAs]

end Db

/-! ### The loop of `store_file` -/

namespace ChunkStore

/-- The invariant of `store_file`'s loop: each `ref_count` is the stored rows plus the stored
chunks of the manifest being built. -/
def LoopCounted (l : Loop) : Prop :=
  ∀ hash, l.sys.db.refCountOf hash =
    l.sys.db.fileChunks.countP (·.storedAs hash) + l.chunks.countP (·.storedAs hash)

theorem loopCounted_chunkStep {env : Env} {storageDir : String} {comp : CompressionType}
    {encrypt : Bool} {key : Bytes32} {l : Loop} {w : Bytes} (h : LoopCounted l)
    (hc : (chunkStep env storageDir comp encrypt key l w).sys.failed = l.sys.failed) :
    LoopCounted (chunkStep env storageDir comp encrypt key l w) := by
  intro hash
  rcases chunkStep_of_clean hc with ⟨-, e⟩ | ⟨-, p, fs, -, -, -, e⟩ <;> rw [e]
  · simp [List.countP_append, ChunkInfo.storedAs, h hash]
  · simp only [Loop.push_sys, Loop.push_chunks, Db.refCountOf_storeChunk, Db.storeChunk_fileChunks,
      List.countP_append, h hash]
    by_cases hh : hash = env.codec.hashHex w <;> simp [ChunkInfo.storedAs, hh, Ne.symm, Nat.add_assoc]

theorem loopCounted_foldl (env : Env) (storageDir : String) (comp : CompressionType)
    (encrypt : Bool) (key : Bytes32) (ws : List Bytes) (l : Loop) (h : LoopCounted l)
    (hc : (ws.foldl (chunkStep env storageDir comp encrypt key) l).sys.failed = l.sys.failed) :
    LoopCounted (ws.foldl (chunkStep env storageDir comp encrypt key) l) :=
  foldl_clean _ (fun l => l.sys.failed) (prefix_failed_chunkStep env storageDir comp encrypt key)
    LoopCounted (fun _ _ h hc => loopCounted_chunkStep h hc) ws l h hc

/-- A `store_file` without a failed call keeps the invariant: its `store_chunk`s and its
manifest's stored rows match. -/
theorem refsCounted_storeFile {env : Env} {storageDir : String} {s : Sys} {filePath : String}
    {comp : CompressionType} {encrypt : Bool} {key : Bytes32} {jobId : Int} {rel : String}
    (h : s.db.RefsCounted)
    (hc : (storeFile env storageDir s filePath comp encrypt key jobId rel).2.failed = s.failed) :
    (storeFile env storageDir s filePath comp encrypt key jobId rel).2.db.RefsCounted := by
  revert hc
  dsimp only [storeFile]
  split
  · exact fun _ => h
  · split
    · exact fun _ => h
    · rename_i data _
      intro hc
      dsimp only at hc
      have hl := prefix_squeeze (prefix_failed_foldl_chunkStep env storageDir comp encrypt key
        (windows data) ⟨[], 0, 0, s⟩) (Sys.prefix_failed_write ..) hc
      have hinv := loopCounted_foldl env storageDir comp encrypt key (windows data) ⟨[], 0, 0, s⟩
        (fun hash => by simpa using h hash) hl
      intro hash
      rw [Sys.write_db, Db.countP_storeFileManifest (Sys.ok_of_failed_write (hc.trans hl.symm)),
        ← hinv hash]
      simp [Db.refCountOf]

end ChunkStore

/-! ### Runs of the worker -/

namespace Worker

theorem refsCounted_fileStep {env : Env} {dataDir : String} {job : BackupJob} {key : Bytes32}
    {base : String} {t : Tally} {f : String} (h : t.sys.db.RefsCounted)
    (hc : (fileStep env dataDir job key base t f).sys.failed = t.sys.failed) :
    (fileStep env dataDir job key base t f).sys.db.RefsCounted := by
  revert hc
  dsimp only [fileStep]
  split
  · exact fun _ => h
  · exact ChunkStore.refsCounted_storeFile h

theorem refsCounted_storeFiles {env : Env} {dataDir : String} {job : BackupJob} {key : Bytes32}
    {snap : SnapshotInfo} {s : Sys} (h : s.db.RefsCounted)
    (hc : (storeFiles env dataDir job key snap s).sys.failed = s.failed) :
    (storeFiles env dataDir job key snap s).sys.db.RefsCounted :=
  ChunkStore.foldl_clean _ (fun t : Tally => t.sys.failed) (prefix_failed_fileStep env dataDir job key _)
    (fun t => t.sys.db.RefsCounted) (fun _ _ h hc => refsCounted_fileStep h hc) _ ⟨_, 0, s⟩ h hc

/-- A run of `execute` without a failed call keeps the invariant. -/
theorem refsCounted_execute {env : Env} {dataDir : String} {now : Nat} {job : BackupJob}
    {key : Bytes32} {s : Sys} (h : s.db.RefsCounted)
    (hc : (execute env dataDir now job key s).2.failed = s.failed) :
    (execute env dataDir now job key s).2.db.RefsCounted := by
  obtain ⟨hcons, hst, -⟩ := fromSnapshot_of_clean (execute_of_clean hc).2
  dsimp only [execute, Sys.write_fs]
  rw [fromSnapshot_of_consistent _ _ _ _ _ hcons]
  exact (refsCounted_storeFiles (h.congr (by simp) (by simp)) hst).congr (by simp) (by simp)

end Worker

/-! ### Every reachable state -/

/-- What a process does to the store in a run without failures: submit a job, change a job's
status (as the orchestrator does when it cancels or fails one), or run a job without a failed
call. -/
inductive CleanStep : Sys → Sys → Prop
  | submit (s : Sys) (job : BackupJob) (now : Nat) (ok : Bool) :
      CleanStep s { s with db := (s.db.createJob job now ok).2 }
  | setStatus (s : Sys) (id : Int) (st : JobStatus) (e : String) (ok : Bool) :
      CleanStep s { s with db := (s.db.updateJobStatus id st e ok).2 }
  | execute (s : Sys) (env : Env) (dataDir : String) (now : Nat) (job : BackupJob) (key : Bytes32)
      (h : (Worker.execute env dataDir now job key s).2.failed = s.failed) :
      CleanStep s (Worker.execute env dataDir now job key s).2

theorem refsCounted_cleanStep {s s' : Sys} (h : s.db.RefsCounted) (hs : CleanStep s s') :
    s'.db.RefsCounted := by
  cases hs with
  | submit => exact h.congr (by simp) (by simp)
  | setStatus => exact h.congr (by simp) (by simp)
  | execute _ _ _ _ _ hc => exact Worker.refsCounted_execute h hc

/-- Along any sequence of submissions, status changes and runs without a failed call, from a
store where it holds (the empty one, say), each chunk's `ref_count` is the number of rows naming
it that were stored. -/
theorem refsCounted_of_reachable {s s' : Sys} (h₀ : s.db.RefsCounted)
    (h : Relation.ReflTransGen CleanStep s s') : s'.db.RefsCounted := by
  induction h with
  | refl => exact h₀
  | tail _ hs ih => exact refsCounted_cleanStep ih hs

/-- A source directory `/data` holding two files with the same byte. -/
def twinFs : Fs := ⟨.dir [("data", .dir [("a", .file 0), ("b", .file 1)])], fun _ => [7], 2⟩

/-- Job `1`, submitted with the defaults (LZ4, encrypted), over `/data`. -/
def twinJob : BackupJob := { jobId := 1, sourcePath := "/data", backupName := "twins" }

/-- The start of the run: the job submitted, nothing else stored. -/
def twinStart : Sys := { db := (Db.empty.createJob twinJob 0 true).2, fs := twinFs }

theorem refsCounted_twinRun :
    (Worker.execute (Env.reliable Codec.transparent) "/var" 5 twinJob Bytes32.zero twinStart).2.db.RefsCounted :=
  refsCounted_of_reachable (s := twinStart) (Db.refsCounted_empty.congr (by simp [twinStart])
    (by simp [twinStart])) (.single (.execute _ _ _ _ _ _ (by decide)))

/-- The second file's window is deduplicated against the first's: the chunk's row keeps
`ref_count` 1 while two `file_chunks` rows name it. -/
theorem dedup_rows_uncounted :
    let r : Result × Sys :=
      Worker.execute (Env.reliable Codec.transparent) "/var" 5 twinJob Bytes32.zero twinStart
    let hash := Codec.transparent.hashHex [7]
    r.2.failed = [] ∧ r.2.db.status 1 = some .completed ∧ r.2.db.refCountOf hash = 1 ∧
      r.2.db.fileChunks.map (fun c => (c.chunkHash, c.deduplicated)) =
        [(hash, false), (hash, true)] := by
  decide

end FileBackup
