import FileBackup.Rebackup

/-!
# The totals a run records

`execute` sums the sizes that `stat` reports for the files it lists into `total_bytes` before its
loop, and adds each stored file's `file_size` to `processed` inside the loop. The loop writes only
below the chunk store, so the files it lists keep their sizes while it runs, as long as no regular
file below the store shares an inode with one outside it. Then `processed` ends equal to
`total_bytes` (`storeFiles_totals`), whatever the metadata writes, the codec and the chunk
writes return.

* `fileStep_totals`: one file adds its size to `processed`; the tally of its chunks changes
  neither `total_bytes` nor `file_count`.
* `foldl_fileStep_totals`: the loop adds the sizes of all the files it is given.
* `execute_totals`: a run without a failed call records the number of regular files below the
  source as `file_count`, and their summed sizes as both `total_bytes` and `processed_bytes`.
-/

namespace FileBackup

@[simp] theorem Db.setStatus_fileCount (job : BackupJob) (s : JobStatus) (e : String) :
    (Db.setStatus job s e).fileCount = job.fileCount := by
  unfold Db.setStatus; split <;> rfl

namespace Worker

@[simp] theorem tally_totalBytes (db : Db) (r : Result) (c : ChunkInfo) :
    (tally db r c).totalBytes = r.totalBytes := by
  unfold tally; split
  · rfl
  · split <;> rfl

@[simp] theorem tally_fileCount (db : Db) (r : Result) (c : ChunkInfo) :
    (tally db r c).fileCount = r.fileCount := by
  unfold tally; split
  · rfl
  · split <;> rfl

theorem foldl_tally_totals (db : Db) (cs : List ChunkInfo) (r : Result) :
    (cs.foldl (tally db) r).totalBytes = r.totalBytes ∧
      (cs.foldl (tally db) r).fileCount = r.fileCount :=
  ChunkStore.foldl_rel (fun x y : Result => y.totalBytes = x.totalBytes ∧ y.fileCount = x.fileCount)
    (fun _ => ⟨rfl, rfl⟩) (fun h₁ h₂ => ⟨h₂.1.trans h₁.1, h₂.2.trans h₁.2⟩) _
    (fun r c => ⟨tally_totalBytes db r c, tally_fileCount db r c⟩) cs r

variable {env : Env} {dataDir : String} {job : BackupJob} {key : Bytes32} {base : String}

/-- A regular file adds its size to `processed` and leaves `total_bytes` and `file_count`. -/
theorem fileStep_totals {t : Tally} {f : String} {i : Nat}
    (hf : t.sys.fs.lookup (splitPath f) = some (.file i)) :
    let t' := fileStep env dataDir job key base t f
    t'.processed = t.processed + (t.sys.fs.inodes i).length ∧
      t'.result.totalBytes = t.result.totalBytes ∧ t'.result.fileCount = t.result.fileCount := by
  rw [fileStep_of_file env dataDir job key base hf,
    ChunkStore.storeFile_of_file env (storageDir dataDir) job.compression job.encrypt key job.jobId
      (relPath base f) hf]
  exact ⟨rfl, foldl_tally_totals ..⟩

/-- The file loop over regular files outside the store, from a filesystem whose store shares no
inode with the rest: `processed` grows by the files' sizes, and the totals taken before the loop
stay. -/
theorem foldl_fileStep_totals (f : Path × Nat → String) : ∀ (xs : List (Path × Nat)) (t : Tally),
    t.sys.fs.Confined (splitPath (storageDir dataDir)) →
    (∀ x ∈ xs, t.sys.fs.lookup (splitPath (f x)) = some (.file x.2) ∧
      ¬ splitPath (storageDir dataDir) <+: splitPath (f x)) →
    let t' := (xs.map f).foldl (fileStep env dataDir job key base) t
    t'.processed = t.processed + (xs.map fun x => (t.sys.fs.inodes x.2).length).sum ∧
      t'.result.totalBytes = t.result.totalBytes ∧ t'.result.fileCount = t.result.fileCount
  | [], _, _, _ => ⟨rfl, rfl, rfl⟩
  | x :: xs, t, hc, hxs => by
    obtain ⟨hfx, -⟩ := hxs x (List.mem_cons_self x xs)
    obtain ⟨hp₁, ht₁, hn₁⟩ := @fileStep_totals env dataDir job key base _ _ _ hfx
    obtain ⟨hk, hc'⟩ := writesWithin_fileStep env dataDir job key base t (f x) hc
    -- the files after `x` are where they were, with their bytes
    have hkeep := fun y (hy : y ∈ xs) => hk _ _ (hxs y (List.mem_cons_of_mem x hy)).2
      (hxs y (List.mem_cons_of_mem x hy)).1
    obtain ⟨hp, ht, hn⟩ := foldl_fileStep_totals f xs _ hc' fun y hy =>
      ⟨(hkeep y hy).1, (hxs y (List.mem_cons_of_mem x hy)).2⟩
    have hsum : (xs.map fun y => ((fileStep env dataDir job key base t (f x)).sys.fs.inodes y.2).length).sum =
        (xs.map fun y => (t.sys.fs.inodes y.2).length).sum :=
      congrArg List.sum (List.map_congr_left fun y hy => by rw [(hkeep y hy).2])
    simp only [List.map_cons, List.foldl_cons, List.sum_cons] at hp ht hn ⊢
    exact ⟨by rw [hp, hsum, hp₁, Nat.add_assoc], ht.trans ht₁, hn.trans hn₁⟩

/-- A run whose snapshot of a well-formed source directory is consistent, from a filesystem whose
store shares no inode with the rest, leaves its loop with `file_count` the number of files of the
source and `processed` equal to `total_bytes`, their summed sizes. -/
theorem storeFiles_totals {now : Nat} {s : Sys} {es : List (String × Node)}
    (hsrc : s.fs.lookup (splitPath job.sourcePath) = some (.dir es)) (hwf : Node.WfOf es)
    (hconf : s.fs.Confined (splitPath (storageDir dataDir)))
    (hs₁ : ¬ splitPath (storageDir dataDir) <+: splitPath job.sourcePath)
    (hs₂ : ¬ splitPath job.sourcePath <+: splitPath (storageDir dataDir))
    (hsep : ¬ splitPath job.sourcePath <+:
      splitPath (snapshotDir (snapshotsDir dataDir) job.jobId now))
    (hcons : (createSnapshot s.fs (snapshotsDir dataDir) job.jobId job.sourcePath now).1.isConsistent = true)
    (s₀ : Sys) :
    let snap := createSnapshot s.fs (snapshotsDir dataDir) job.jobId job.sourcePath now
    let t := storeFiles env dataDir job key snap.1 { s₀ with fs := snap.2 }
    t.result.fileCount = (Node.filesOf es).length ∧
      t.result.totalBytes = ((Node.filesOf es).map fun x => (s.fs.inodes x.2).length).sum ∧
      t.processed = t.result.totalBytes := by
  obtain ⟨ha₁, ha₂⟩ := storage_apart_snapshot dataDir job.jobId now
  obtain ⟨hino, hlist, hlook⟩ := createSnapshot_dir hsrc hwf hsep Prod.mk.eta.symm hcons
  have hconf' := hconf.createSnapshot hsrc hwf hsep hs₁ hs₂ ha₁ ha₂ Prod.mk.eta.symm hcons
  generalize createSnapshot s.fs (snapshotsDir dataDir) job.jobId job.sourcePath now = snap
    at hino hlist hlook hconf'
  -- each listed file is the snapshot's link to a file of the source
  have hfiles : ∀ x ∈ Node.filesOf es,
      snap.2.lookup (splitPath (snapshotDir (snapshotsDir dataDir) job.jobId now ++ "/" ++
        joinRel x.1)) = some (.file x.2) ∧
      ¬ splitPath (storageDir dataDir) <+: splitPath (snapshotDir (snapshotsDir dataDir) job.jobId
        now ++ "/" ++ joinRel x.1) := fun x hx => by
    rw [splitPath_listed _ hwf hx]
    exact ⟨hlook x hx, not_prefix_append_of_apart ha₁ ha₂ x.1⟩
  have htotal : ((listFiles snap.2 snap.1).filterMap fun f => snap.2.statSize (splitPath f)).sum =
      ((Node.filesOf es).map fun x => (s.fs.inodes x.2).length).sum := by
    rw [hlist, List.filterMap_map, ← hino]
    exact congrArg List.sum (List.filterMap_eq_map_iff_forall_eq_some.2 fun x hx => by
      simp [Function.comp, Fs.statSize, (hfiles x hx).1])
  dsimp only [storeFiles]
  rw [hlist] at htotal ⊢
  obtain ⟨hp, ht, hn⟩ := foldl_fileStep_totals (fun x =>
      snapshotDir (snapshotsDir dataDir) job.jobId now ++ "/" ++ joinRel x.1) (Node.filesOf es)
    ⟨{ jobId := job.jobId, totalBytes := _, fileCount := _ }, 0,
      { s₀ with fs := snap.2 }⟩ hconf' hfiles
  refine ⟨by rw [hn, List.length_map], by rw [ht, htotal], ?_⟩
  rw [hp, ht, htotal, Nat.zero_add]
  exact congrArg List.sum (List.map_congr_left fun x _ => by rw [← hino])

end Worker

/-- A backup without a failed call records the job's totals. Let a process run `execute`
without a failed call, on a job that has a row, over a well-formed source directory apart from
the chunk store and from the snapshot, from a filesystem whose store shares no inode with the
rest. Then the job's row ends `COMPLETED`, with `file_count` the number of regular files below the
source and `total_bytes` and `processed_bytes` both their summed sizes. -/
theorem execute_totals {env : Env} {dataDir : String} {now : Nat} {job : BackupJob}
    {key : Bytes32} {s : Sys} {es : List (String × Node)} {J : BackupJob}
    (hsrc : s.fs.lookup (splitPath job.sourcePath) = some (.dir es)) (hwf : Node.WfOf es)
    (hconf : s.fs.Confined (splitPath (storageDir dataDir)))
    (hs₁ : ¬ splitPath (storageDir dataDir) <+: splitPath job.sourcePath)
    (hs₂ : ¬ splitPath job.sourcePath <+: splitPath (storageDir dataDir))
    (hsep : ¬ splitPath job.sourcePath <+:
      splitPath (snapshotDir (snapshotsDir dataDir) job.jobId now))
    (hrow : s.db.getJob job.jobId = some J)
    (hcl : (Worker.execute env dataDir now job key s).2.failed = s.failed) :
    ∃ J', (Worker.execute env dataDir now job key s).2.db.getJob job.jobId = some J' ∧
      J'.status = .completed ∧ J'.fileCount = (Node.filesOf es).length ∧
      J'.totalBytes = ((Node.filesOf es).map fun x => (s.fs.inodes x.2).length).sum ∧
      J'.processedBytes = J'.totalBytes := by
  obtain ⟨hok, hfs⟩ := Worker.execute_of_clean hcl
  obtain ⟨hcons, hloop, hfin⟩ := Worker.fromSnapshot_of_clean hfs
  obtain ⟨hn, ht, hp⟩ := @Worker.storeFiles_totals env dataDir job key now s es hsrc hwf hconf hs₁
    hs₂ hsep hcons (Worker.running env job s)
  have hrow₂ := Worker.finishWrites_row (J := Db.setStatus J .running "")
    (by
      rw [(Worker.sameJobs_storeFiles ..).1]
      simp [Db.updateJobStatus_jobs, hok, show s.db.jobs job.jobId = some J from hrow])
    (hfin.trans hloop.symm)
  rw [Worker.execute_eq, Worker.fromSnapshot_db_of_consistent _ _ _ _ _ hcons]
  refine ⟨_, hrow₂, by simp [Db.setStatus], ?_⟩
  simp only [Db.setStatus_counters, Db.setStatus_fileCount, Db.setStats]
  exact ⟨hn, ht, hp⟩

/-- Job 1 of `pairStart`, run under `/var` by a process none of whose calls fails, records the
two files of `/data` and their three bytes. -/
theorem pair_totals :
    ∃ J', firstRun.2.db.getJob 1 = some J' ∧ J'.status = .completed ∧
      J'.fileCount = (Node.filesOf [("a", .file 0), ("b", .file 1)]).length ∧
      J'.totalBytes =
        ((Node.filesOf [("a", .file 0), ("b", .file 1)]).map fun x => (pairStart.fs.inodes x.2).length).sum ∧
      J'.processedBytes = J'.totalBytes :=
  @execute_totals (Env.reliable Codec.transparent) "/var" 5 (dataJob 1) Bytes32.zero pairStart
    [("a", .file 0), ("b", .file 1)] _ rfl
    ⟨by decide, by decide, trivial, by decide, by decide, trivial, trivial⟩
    (Fs.confined_of_files (by decide)) (by decide) (by decide) (by decide) rfl (by decide)

end FileBackup
