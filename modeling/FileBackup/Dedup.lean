import FileBackup.Worker

/-!
# Deduplication

`store_file` looks each window's hash up in `chunks` and stores only the windows it does not
find. Over every run:

* chunk rows only appear (`ChunksGrow`), and a `store_file` without a failed call leaves every
  window of the file recorded (`covers_storeFile`, with `Db.Covers`);
* a file all of whose windows are recorded is stored as duplicates only: neither the filesystem
  nor the chunk rows change, and its bytes go to `dedup_savings` (`storeFile_of_covers`,
  `foldl_fileStep_of_covers`);
* the file loop of `execute` writes only below the chunk store's directory
  (`writesWithin_fileStep`), so the files of a snapshot read the same all along it, and a loop
  without a failed call leaves every file of the snapshot recorded (`covers_foldl_fileStep`).
-/

namespace FileBackup

/-- Every window of `data` has its hash recorded in `chunks`. -/
def Db.Covers (db : Db) (c : Codec) (data : Bytes) : Prop :=
  ∀ w ∈ windows data, db.chunkExists (c.hashHex w) = true

/-- Every hash with a row in `db` has one in `db'`. -/
def ChunksGrow (db db' : Db) : Prop := ∀ h, db.chunkExists h = true → db'.chunkExists h = true

theorem Db.Covers.grow {db db' : Db} {c : Codec} {data : Bytes} (h : db.Covers c data)
    (hg : ChunksGrow db db') : db'.Covers c data :=
  fun w hw => hg _ (h w hw)

theorem chunksGrow_of_chunks {db db' : Db} (h : db'.chunks = db.chunks) : ChunksGrow db db' :=
  fun x hx => by simpa [Db.chunkExists, h] using hx

namespace ChunkStore

/-! ### Chunk rows only appear -/

theorem chunksGrow_chunkStep (env : Env) (storageDir : String) (comp : CompressionType)
    (encrypt : Bool) (key : Bytes32) (l : Loop) (w : Bytes) :
    ChunksGrow l.sys.db (chunkStep env storageDir comp encrypt key l w).sys.db := by
  dsimp only [chunkStep]
  split
  · exact fun _ h => h
  · split
    · exact fun _ h => h
    · split
      · exact fun _ h => h
      · intro x hx; simp [hx]

theorem chunksGrow_storeFile (env : Env) (storageDir : String) (s : Sys) (filePath : String)
    (comp : CompressionType) (encrypt : Bool) (key : Bytes32) (jobId : Int) (rel : String) :
    ChunksGrow s.db (storeFile env storageDir s filePath comp encrypt key jobId rel).2.db := by
  dsimp only [storeFile]
  split
  · exact fun _ h => h
  · split
    · exact fun _ h => h
    · rename_i data _
      intro x hx
      have := foldl_rel (fun x y : Loop => ChunksGrow x.sys.db y.sys.db) (fun _ _ h => h)
        (fun h h' x hx => h' x (h x hx)) _ (chunksGrow_chunkStep env storageDir comp encrypt key)
        (windows data) ⟨[], 0, 0, s⟩ x hx
      simpa [Db.chunkExists] using this

/-- A step without a failed call leaves its window recorded. -/
theorem chunkExists_chunkStep_of_clean {env : Env} {storageDir : String} {comp : CompressionType}
    {encrypt : Bool} {key : Bytes32} {l : Loop} {w : Bytes}
    (h : (chunkStep env storageDir comp encrypt key l w).sys.failed = l.sys.failed) :
    (chunkStep env storageDir comp encrypt key l w).sys.db.chunkExists (env.codec.hashHex w) = true := by
  rcases chunkStep_of_clean h with ⟨hx, e⟩ | ⟨-, p, fs, -, -, -, e⟩ <;> rw [e]
  · exact hx
  · simp

/-- A `store_file` of a regular file without a failed call leaves every window of its bytes
recorded. -/
theorem covers_storeFile {env : Env} {storageDir : String} {s : Sys} {filePath : String}
    {comp : CompressionType} {encrypt : Bool} {key : Bytes32} {jobId : Int} {rel : String} {i : Nat}
    (hf : s.fs.lookup (splitPath filePath) = some (.file i))
    (hc : (storeFile env storageDir s filePath comp encrypt key jobId rel).2.failed = s.failed) :
    (storeFile env storageDir s filePath comp encrypt key jobId rel).2.db.Covers env.codec
      (s.fs.inodes i) := by
  rw [storeFile_of_file env storageDir comp encrypt key jobId rel hf] at hc ⊢
  dsimp only at hc ⊢
  have hl := prefix_squeeze (prefix_failed_foldl_chunkStep env storageDir comp encrypt key
    (windows (s.fs.inodes i)) ⟨[], 0, 0, s⟩) (Sys.prefix_failed_write ..) hc
  intro w hw
  have := foldl_clean_mem _ (fun l => l.sys.failed)
    (prefix_failed_chunkStep env storageDir comp encrypt key) (fun _ => True) (fun _ _ _ => trivial)
    (fun l w => l.sys.db.chunkExists (env.codec.hashHex w) = true)
    (fun _ _ _ h => chunkExists_chunkStep_of_clean h)
    (fun b a _ h => chunksGrow_chunkStep env storageDir comp encrypt key b a _ h) _ _ trivial hl w hw
  simpa [Db.chunkExists] using this

/-! ### Where the store writes -/

theorem prefix_getChunkPath (storageDir hash : String) :
    splitPath storageDir <+: splitPath (getChunkPath storageDir hash) := by
  have h : getChunkPath storageDir hash = storageDir ++ "/" ++ ("chunks/" ++ ⟨hash.data.take 2⟩ ++
      "/" ++ ⟨(hash.data.drop 2).take 2⟩ ++ "/" ++ hash) := by
    simp only [getChunkPath, String.append_assoc]; rfl
  rw [h, splitPath_append_slash]
  exact List.prefix_append _ _

theorem writesWithin_chunkStep (env : Env) (storageDir : String) (comp : CompressionType)
    (encrypt : Bool) (key : Bytes32) (l : Loop) (w : Bytes) :
    Fs.WritesWithin (splitPath storageDir) l.sys.fs
      (chunkStep env storageDir comp encrypt key l w).sys.fs := by
  dsimp only [chunkStep]
  split
  · exact .refl _ _
  · split
    · exact .refl _ _
    · split
      · exact Fs.writesWithin_mkdirP _ _ _ _
      · rename_i fs' hfs'
        exact (Fs.writesWithin_mkdirP _ _ _ _).trans fun h =>
          Fs.writeFile_confined hfs' (prefix_getChunkPath storageDir _) h

theorem writesWithin_storeFile (env : Env) (storageDir : String) (s : Sys) (filePath : String)
    (comp : CompressionType) (encrypt : Bool) (key : Bytes32) (jobId : Int) (rel : String) :
    Fs.WritesWithin (splitPath storageDir) s.fs
      (storeFile env storageDir s filePath comp encrypt key jobId rel).2.fs := by
  dsimp only [storeFile]
  split
  · exact .refl _ _
  · split
    · exact .refl _ _
    · rename_i data _
      exact foldl_rel (fun x y : Loop => Fs.WritesWithin (splitPath storageDir) x.sys.fs y.sys.fs)
        (fun _ => .refl _ _) (fun h h' => h.trans h') _
        (writesWithin_chunkStep env storageDir comp encrypt key) (windows data) ⟨[], 0, 0, s⟩

/-! ### Files already recorded -/

/-- The loop over windows that all have rows records each as deduplicated and changes nothing
else. -/
theorem foldl_chunkStep_of_exists (env : Env) (storageDir : String) (comp : CompressionType)
    (encrypt : Bool) (key : Bytes32) :
    ∀ (ws : List Bytes) (l : Loop), (∀ w ∈ ws, l.sys.db.chunkExists (env.codec.hashHex w) = true) →
      (ws.foldl (chunkStep env storageDir comp encrypt key) l).sys = l.sys ∧
      ∃ cs, (ws.foldl (chunkStep env storageDir comp encrypt key) l).chunks = l.chunks ++ cs ∧
        (∀ c ∈ cs, c.deduplicated = true) ∧ (cs.map (·.size)).sum = (ws.map List.length).sum
  | [], l, _ => ⟨rfl, [], by simp, by simp, rfl⟩
  | w :: ws, l, h => by
    have hw : chunkStep env storageDir comp encrypt key l w =
        l.push (env.codec.hashHex w) w l.sys true := by
      simp only [chunkStep, h w (List.mem_cons_self _ _), ↓reduceIte]
    obtain ⟨hs, cs, hcs, hd, hsum⟩ := foldl_chunkStep_of_exists env storageDir comp encrypt key ws
      (l.push (env.codec.hashHex w) w l.sys true) (fun w' hw' => h w' (List.mem_cons_of_mem _ hw'))
    rw [List.foldl_cons, hw]
    refine ⟨hs, ⟨env.codec.hashHex w, l.offset, w.length, l.idx, true⟩ :: cs, by simp [hcs], ?_, ?_⟩
    · exact List.forall_mem_cons.2 ⟨rfl, hd⟩
    · simp [hsum]

/-- `store_file` of a regular file whose windows all have rows: the filesystem and the chunk
rows are unchanged, and the manifest's chunks are duplicates that cover the file's bytes. -/
theorem storeFile_of_covers (env : Env) (storageDir : String) (comp : CompressionType)
    (encrypt : Bool) (key : Bytes32) (jobId : Int) (rel : String) {s s' : Sys}
    {filePath : String} {i : Nat} {m : FileManifest}
    (hf : s.fs.lookup (splitPath filePath) = some (.file i))
    (hcov : s.db.Covers env.codec (s.fs.inodes i))
    (h : storeFile env storageDir s filePath comp encrypt key jobId rel = (m, s')) :
    s'.fs = s.fs ∧ s'.db.chunks = s.db.chunks ∧ m.fileSize = (s.fs.inodes i).length ∧
      (∀ c ∈ m.chunks, c.deduplicated = true) ∧ (m.chunks.map (·.size)).sum = (s.fs.inodes i).length := by
  obtain ⟨hs, cs, hcs, hd, hsum⟩ := foldl_chunkStep_of_exists env storageDir comp encrypt key
    (windows (s.fs.inodes i)) ⟨[], 0, 0, s⟩ hcov
  rw [storeFile_of_file env storageDir comp encrypt key jobId rel hf, Prod.mk.injEq] at h
  obtain ⟨rfl, rfl⟩ := h
  rw [sum_length_windows] at hsum
  simp only [hs, hcs, List.nil_append, Sys.write_fs, Sys.write_db, Db.storeFileManifest_chunks,
    true_and]
  exact ⟨hd, hsum⟩

end ChunkStore

namespace Worker

/-! ### The file loop -/

theorem foldl_tally_of_dedup (db : Db) : ∀ (cs : List ChunkInfo) (r : Result),
    (∀ c ∈ cs, c.deduplicated = true) →
      cs.foldl (tally db) r = { r with dedupSavings := r.dedupSavings + (cs.map (·.size)).sum }
  | [], _, _ => rfl
  | c :: cs, r, h => by
    rw [List.foldl_cons, foldl_tally_of_dedup db cs _ (fun c' hc' => h c' (List.mem_cons_of_mem _ hc'))]
    simp [tally, h c (List.mem_cons_self _ _), Nat.add_assoc]

/-- A regular file whose windows all have rows adds its bytes to `processed` and to
`dedup_savings`, and changes neither the filesystem nor the chunk rows. -/
theorem fileStep_of_covers (env : Env) (dataDir : String) (job : BackupJob) (key : Bytes32)
    (base : String) {t : Tally} {f : String} {i : Nat}
    (hf : t.sys.fs.lookup (splitPath f) = some (.file i))
    (hcov : t.sys.db.Covers env.codec (t.sys.fs.inodes i)) :
    (fileStep env dataDir job key base t f).sys.fs = t.sys.fs ∧
      (fileStep env dataDir job key base t f).sys.db.chunks = t.sys.db.chunks ∧
      (fileStep env dataDir job key base t f).result =
        { t.result with dedupSavings := t.result.dedupSavings + (t.sys.fs.inodes i).length } ∧
      (fileStep env dataDir job key base t f).processed = t.processed + (t.sys.fs.inodes i).length := by
  obtain ⟨hfs, hch, hsize, hd, hsum⟩ := ChunkStore.storeFile_of_covers env (storageDir dataDir)
    job.compression job.encrypt key job.jobId (relPath base f) hf hcov Prod.mk.eta.symm
  rw [fileStep_of_file env dataDir job key base hf]
  simp only [foldl_tally_of_dedup _ _ _ hd, hsum, hsize, hfs, hch, and_self]

/-- The file loop over files that are all regular files whose windows all have rows: the
filesystem and the chunk rows are unchanged, and the files' sizes go to `processed` and to
`dedup_savings`. -/
theorem foldl_fileStep_of_covers (env : Env) (dataDir : String) (job : BackupJob) (key : Bytes32)
    (base : String) : ∀ (files : List String) (t : Tally), (∀ f ∈ files, ∃ i,
      t.sys.fs.lookup (splitPath f) = some (.file i) ∧ t.sys.db.Covers env.codec (t.sys.fs.inodes i)) →
    (files.foldl (fileStep env dataDir job key base) t).sys.fs = t.sys.fs ∧
      (files.foldl (fileStep env dataDir job key base) t).sys.db.chunks = t.sys.db.chunks ∧
      (files.foldl (fileStep env dataDir job key base) t).result = { t.result with dedupSavings :=
        t.result.dedupSavings + (files.filterMap fun f => t.sys.fs.statSize (splitPath f)).sum } ∧
      (files.foldl (fileStep env dataDir job key base) t).processed =
        t.processed + (files.filterMap fun f => t.sys.fs.statSize (splitPath f)).sum
  | [], _, _ => ⟨rfl, rfl, rfl, rfl⟩
  | f :: files, t, h => by
    obtain ⟨i, hf, hcov⟩ := h f (List.mem_cons_self _ _)
    obtain ⟨hfs, hch, hres, hproc⟩ := fileStep_of_covers env dataDir job key base hf hcov
    have h' : ∀ g ∈ files, ∃ j, (fileStep env dataDir job key base t f).sys.fs.lookup (splitPath g) =
        some (.file j) ∧ (fileStep env dataDir job key base t f).sys.db.Covers env.codec
          ((fileStep env dataDir job key base t f).sys.fs.inodes j) := by
      intro g hg
      obtain ⟨j, hj, hc⟩ := h g (List.mem_cons_of_mem _ hg)
      rw [hfs]
      exact ⟨j, hj, hc.grow (chunksGrow_of_chunks hch)⟩
    obtain ⟨ihfs, ihch, ihres, ihproc⟩ := foldl_fileStep_of_covers env dataDir job key base files _ h'
    rw [List.foldl_cons, ihres, ihproc, hres, hproc, ihfs, ihch, hfs, hch]
    simp [Fs.statSize, hf, Nat.add_assoc]

/-! ### A loop without a failed call records every file -/

theorem writesWithin_fileStep (env : Env) (dataDir : String) (job : BackupJob) (key : Bytes32)
    (base : String) (t : Tally) (f : String) :
    Fs.WritesWithin (splitPath (storageDir dataDir)) t.sys.fs
      (fileStep env dataDir job key base t f).sys.fs := by
  dsimp only [fileStep]
  split
  · exact .refl _ _
  · exact ChunkStore.writesWithin_storeFile env (storageDir dataDir) t.sys f job.compression
      job.encrypt key job.jobId (relPath base f)

theorem chunksGrow_fileStep (env : Env) (dataDir : String) (job : BackupJob) (key : Bytes32)
    (base : String) (t : Tally) (f : String) :
    ChunksGrow t.sys.db (fileStep env dataDir job key base t f).sys.db := by
  dsimp only [fileStep]
  split
  · exact fun _ h => h
  · exact ChunkStore.chunksGrow_storeFile env (storageDir dataDir) t.sys f job.compression
      job.encrypt key job.jobId (relPath base f)

/-- A file loop without a failed call, from a filesystem that keeps the chunk store apart,
leaves the bytes of every listed regular file outside the store recorded. -/
theorem covers_foldl_fileStep {env : Env} {dataDir : String} {job : BackupJob} {key : Bytes32}
    {base : String} (files : List String) (t : Tally)
    (hconf : t.sys.fs.Confined (splitPath (storageDir dataDir)))
    (hc : (files.foldl (fileStep env dataDir job key base) t).sys.failed = t.sys.failed) :
    ∀ f ∈ files, ∀ i, ¬ splitPath (storageDir dataDir) <+: splitPath f →
      t.sys.fs.lookup (splitPath f) = some (.file i) →
      (files.foldl (fileStep env dataDir job key base) t).sys.db.Covers env.codec
        (t.sys.fs.inodes i) :=
  ChunkStore.foldl_clean_mem (fileStep env dataDir job key base) (fun t => t.sys.failed)
    (prefix_failed_fileStep env dataDir job key base)
    (fun b => b.sys.fs.Confined (splitPath (storageDir dataDir)) ∧
      Fs.KeepsOutside (splitPath (storageDir dataDir)) t.sys.fs b.sys.fs)
    (fun b a hb => ⟨(writesWithin_fileStep env dataDir job key base b a hb.1).2,
      hb.2.trans (writesWithin_fileStep env dataDir job key base b a hb.1).1⟩)
    (fun b f => ∀ i, ¬ splitPath (storageDir dataDir) <+: splitPath f →
      t.sys.fs.lookup (splitPath f) = some (.file i) → b.sys.db.Covers env.codec (t.sys.fs.inodes i))
    (fun b f hb hcl i hs hf => by
      obtain ⟨hf', hino⟩ := hb.2 _ i hs hf
      rw [← hino]
      rw [fileStep_of_file env dataDir job key base hf'] at hcl ⊢
      exact ChunkStore.covers_storeFile hf' hcl)
    (fun b a _ h i hs hf => (h i hs hf).grow (chunksGrow_fileStep env dataDir job key base b a))
    files t ⟨hconf, Fs.KeepsOutside.refl _ _⟩ hc

/-- The file loop of `execute` (from the filesystem `snap.2` its snapshot left), without a
failed call, from a filesystem that keeps the chunk store apart, leaves the bytes of every
listed regular file outside the store recorded. -/
theorem covers_storeFiles (env : Env) (dataDir : String) (job : BackupJob) (key : Bytes32)
    (snap : SnapshotInfo × Fs) (s : Sys) (hconf : snap.2.Confined (splitPath (storageDir dataDir)))
    (hc : (storeFiles env dataDir job key snap.1 { s with fs := snap.2 }).sys.failed = s.failed) :
    ∀ f ∈ listFiles snap.2 snap.1, ∀ i, ¬ splitPath (storageDir dataDir) <+: splitPath f →
      snap.2.lookup (splitPath f) = some (.file i) →
      (storeFiles env dataDir job key snap.1 { s with fs := snap.2 }).sys.db.Covers env.codec
        (snap.2.inodes i) :=
  covers_foldl_fileStep _ ⟨_, 0, _⟩ hconf hc

/-- The file loop of `execute` over listed files that are all regular files whose windows all
have rows stores nothing: the filesystem and the chunk rows are unchanged, no byte is stored,
and every byte counted in `total_bytes` is processed and deduplicated. -/
theorem storeFiles_of_covers (env : Env) (dataDir : String) (job : BackupJob) (key : Bytes32)
    (snap : SnapshotInfo × Fs) (s : Sys) (h : ∀ f ∈ listFiles snap.2 snap.1, ∃ i,
      snap.2.lookup (splitPath f) = some (.file i) ∧ s.db.Covers env.codec (snap.2.inodes i)) :
    let t := storeFiles env dataDir job key snap.1 { s with fs := snap.2 }
    t.sys.fs = snap.2 ∧ t.sys.db.chunks = s.db.chunks ∧ t.result.storedBytes = 0 ∧
      t.result.dedupSavings = t.result.totalBytes ∧ t.processed = t.result.totalBytes := by
  dsimp only [storeFiles]
  obtain ⟨h₁, h₂, h₃, h₄⟩ := foldl_fileStep_of_covers env dataDir job key
    (snapBase snap.1.snapshotPath) (listFiles snap.2 snap.1)
    ⟨{ jobId := job.jobId, fileCount := (listFiles snap.2 snap.1).length
       totalBytes := ((listFiles snap.2 snap.1).filterMap fun f =>
         snap.2.statSize (splitPath f)).sum }, 0, { s with fs := snap.2 }⟩ h
  simp only [h₁, h₂, h₃, h₄]
  simp

end Worker

end FileBackup
