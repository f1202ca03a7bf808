import FileBackup.Verify

/-!
# What the restore's checks guarantee

`ChunkStore::restore_file` checks each chunk it reads against its hash, then hashes the whole
file it wrote and compares the digest with the manifest's `file_hash`. `RestoreEngine::restore_job`
counts and lists a target only when that check passed. This file shows what the checks buy, for
every database and every filesystem: whatever the chunk rows and the chunk files hold, each file
that `restore_job` lists in `restored_files` still holds, when the restore ends, bytes whose digest
is the `file_hash` of its manifest.

Two conditions are needed, and the code needs them too. The manifests' targets are distinct: a
later manifest with the same target overwrites the file, and may fail after that. The files below
the destination are the only links to their inodes (`Fs.Owned`): a write through another link
rewrites their bytes. The model names each target by its path; the kernel resolves those paths
the same way when the destination holds no symbolic link and no path has a `..` component
(`LinkFreeTargets`). The chunk store's cache `chunk_index_` may hold any path: what a chunk
decodes to is checked against its hash whatever file it was read from.

A file is restored only after each of its chunks had a row naming a file that could be read, which
is what `verify_backup` checks, when the cache holds only the rows' paths (`ChunkIndex.Agrees`).
So `verify_backup` passes every job that `restore_job` restores completely, into a destination
apart from the chunk files.

* `restoreFile_cases`: `restore_file` either cannot open its target, or writes the decoded chunks
  there and reports whether they decoded and hash to the manifest's digest.
* `restoreFile_intact` (success means the digest holds), `Owned.restoreFile` and
  `Owned.readFile_restoreFile_of_ne` (every other owned file keeps its bytes).
* `restoreFile_rows`: success through a cache that agrees with the rows means every chunk had a
  row naming a regular file, in a filesystem that differs from the first only below the target
  (`Fs.AddsFilesBelow`).
* `restoreStep_cases`: one manifest of the loop, counted and listed exactly when `restore_file`
  succeeded.
* `Intact`: a listed target is a manifest's and holds bytes with the manifest's digest.
* `foldl_restoreStep_intact`: the loop keeps every listed target intact and counts them.
* `restoreJob_intact`: the whole restore; `pair_restore_intact` is a case of it.
* `verifyBackup_of_restoreJob`: a complete restore means `verify_backup` passes;
  `pair_restore_verifies` is a case of it.
-/

namespace FileBackup

namespace ChunkStore

variable {c : Codec} {index : ChunkIndex} {db : Db} {comp : CompressionType} {encrypted : Bool}
  {key : Bytes32} {fs : Fs} {m : FileManifest} {target : String}

/-- `hash_file` of a regular file is the digest of its bytes. -/
theorem hashFile_of_readFile {p : Path} {b : Bytes} (h : fs.readFile p = some b) :
    hashFile c fs p = c.sha256 b := by
  rw [hashFile, h]

/-- `restore_file` either cannot open its target, and has only made its directories, or writes
the decoded chunks there and reports whether they all decoded and the file's digest is the
manifest's. -/
theorem restoreFile_cases (c : Codec) (index : ChunkIndex) (db : Db) (fs : Fs) (m : FileManifest)
    (target : String) (comp : CompressionType) (encrypted : Bool) (key : Bytes32) :
    let fs₁ := fs.mkdirPath (dirnameOf target)
    let d := fun fs₂ => decodeChunks c index db fs₂ comp encrypted key m.chunks
    (fs₁.writeFile (splitPath target) [] = none ∧
        restoreFile c index db fs m target comp encrypted key = (false, fs₁)) ∨
      ∃ fs₂ fs₃, fs₁.writeFile (splitPath target) [] = some fs₂ ∧
        fs₂.writeFile (splitPath target) (d fs₂).2 = some fs₃ ∧
        restoreFile c index db fs m target comp encrypted key =
          ((d fs₂).1 && toHex (c.sha256 (d fs₂).2) == m.fileHash, fs₃) := by
  intro fs₁ d
  cases h₂ : fs₁.writeFile (splitPath target) [] with
  | none => exact .inl ⟨rfl, by simp only [restoreFile, fs₁, h₂]⟩
  | some fs₂ =>
    -- the target is now a regular file, so the second write succeeds
    obtain ⟨i, hi, -⟩ := Fs.readFile_eq_some.1 (Fs.readFile_writeFile h₂)
    obtain ⟨fs₃, h₃⟩ := Fs.exists_writeFile (.inl ⟨i, hi⟩) (d fs₂).2
    refine .inr ⟨fs₂, fs₃, rfl, h₃, ?_⟩
    simp only [restoreFile, fs₁, h₂, h₃, Option.getD_some,
      hashFile_of_readFile (Fs.readFile_writeFile h₃)]

/-- `restore_file` reports success only when the file it leaves at the target holds bytes whose
digest is the manifest's `file_hash`, whatever the chunk rows and files hold. -/
theorem restoreFile_intact (h : (restoreFile c index db fs m target comp encrypted key).1 = true) :
    ∃ b, (restoreFile c index db fs m target comp encrypted key).2.readFile (splitPath target) =
      some b ∧ toHex (c.sha256 b) = m.fileHash := by
  rcases restoreFile_cases c index db fs m target comp encrypted key with ⟨-, hr⟩ | ⟨fs₂, fs₃, -, h₃, hr⟩
  · rw [hr] at h; cases h
  · rw [hr] at h ⊢
    simp only [Bool.and_eq_true, beq_iff_eq] at h
    exact ⟨_, Fs.readFile_writeFile h₃, h.2⟩

/-- A chunk that decodes through a cache that agrees with the rows has a row, whose
`storage_path` is not empty and names a regular file. -/
theorem decodeChunk_row (hidx : index.Agrees db) {ci : ChunkInfo} {data : Bytes}
    (h : decodeChunk c index db fs comp encrypted key ci = some data) :
    ∃ row, db.getChunkMeta ci.hash = some row ∧ row.storagePath ≠ "" ∧
      ∃ i, fs.lookup (splitPath row.storagePath) = some (.file i) := by
  unfold decodeChunk at h
  rw [hidx.path] at h
  dsimp only at h
  split at h
  · cases h
  · rename_i raw hraw
    split at h
    · cases h
    · split at h
      · cases h
      · rename_i hok
        obtain ⟨row, hrow, hpath⟩ := Db.exists_row_of_getChunkPath fun e => hok (.inl e)
        obtain ⟨i, hi, -⟩ := Fs.readFile_eq_some.1 hraw
        exact ⟨row, hrow, fun e => hok (.inl (hpath.trans e)), i, hpath ▸ hi⟩

/-- Chunks that all decode through a cache that agrees with the rows each have a row, whose
`storage_path` is not empty and names a regular file. -/
theorem decodeChunks_rows (hidx : index.Agrees db) : ∀ {cs : List ChunkInfo},
    (decodeChunks c index db fs comp encrypted key cs).1 = true → ∀ ci ∈ cs, ∃ row,
      db.getChunkMeta ci.hash = some row ∧ row.storagePath ≠ "" ∧
      ∃ i, fs.lookup (splitPath row.storagePath) = some (.file i)
  | [], _ => nofun
  | ci :: cs, h => by
    rw [decodeChunks_cons] at h
    split at h
    · cases h
    · rename_i data hd
      intro ci' hci'
      rcases List.mem_cons.1 hci' with rfl | hci'
      · exact decodeChunk_row hidx hd
      · exact decodeChunks_rows hidx h ci' hci'

/-- When `restore_file` succeeds through a cache that agrees with the rows, each chunk of the
manifest has a row whose `storage_path` is not empty and names a regular file, in a filesystem
that differs from the one it started from only by files at or below the target. -/
theorem restoreFile_rows (hidx : index.Agrees db)
    (h : (restoreFile c index db fs m target comp encrypted key).1 = true) :
    ∃ fs₂, Fs.AddsFilesBelow (splitPath target) fs fs₂ ∧ ∀ ci ∈ m.chunks, ∃ row,
      db.getChunkMeta ci.hash = some row ∧ row.storagePath ≠ "" ∧
      ∃ i, fs₂.lookup (splitPath row.storagePath) = some (.file i) := by
  rcases restoreFile_cases c index db fs m target comp encrypted key with
    ⟨-, hr⟩ | ⟨fs₂, fs₃, h₂, -, hr⟩
  · rw [hr] at h; cases h
  · rw [hr, Bool.and_eq_true] at h
    exact ⟨fs₂, (Fs.addsFilesBelow_mkdirP _ _ _ _).trans
      (Fs.addsFilesBelow_writeFile h₂ (List.prefix_refl _)), decodeChunks_rows hidx h.1⟩

end ChunkStore

open ChunkStore

variable {c : Codec} {index : ChunkIndex} {db : Db} {comp : CompressionType} {encrypted : Bool}
  {key : Bytes32} {fs : Fs} {m : FileManifest} {target : String} {s : Path}

/-- `restore_file` keeps an owned subtree owned. -/
theorem Fs.Owned.restoreFile (ho : fs.Owned s) :
    (ChunkStore.restoreFile c index db fs m target comp encrypted key).2.Owned s := by
  have ho₁ := ho.mkdirP [] (splitPath (dirnameOf target))
  rcases restoreFile_cases c index db fs m target comp encrypted key with ⟨-, hr⟩ | ⟨fs₂, fs₃, h₂, h₃, hr⟩
  · rw [hr]; exact ho₁
  · rw [hr]; exact (ho₁.writeFile h₂).writeFile h₃

/-- `restore_file` keeps every owned regular file but its target, with its bytes. -/
theorem Fs.Owned.readFile_restoreFile_of_ne (ho : fs.Owned s) {q : Path} (hs : s <+: q)
    (hq : q ≠ splitPath target) {b : Bytes} (hb : fs.readFile q = some b) :
    (ChunkStore.restoreFile c index db fs m target comp encrypted key).2.readFile q = some b := by
  have ho₁ := ho.mkdirP [] (splitPath (dirnameOf target))
  have hb₁ : (fs.mkdirPath (dirnameOf target)).readFile q = some b := by
    rw [Fs.mkdirPath, Fs.readFile_mkdirP, hb]
  rcases restoreFile_cases c index db fs m target comp encrypted key with ⟨-, hr⟩ | ⟨fs₂, fs₃, h₂, h₃, hr⟩
  · rw [hr]; exact hb₁
  · rw [hr]
    exact (ho₁.writeFile h₂).readFile_writeFile_of_ne h₃ hs hq
      (ho₁.readFile_writeFile_of_ne h₂ hs hq hb₁)

/-- `restore_file` adds regular files only at or below its target. -/
theorem Fs.addsFilesBelow_restoreFile :
    Fs.AddsFilesBelow (splitPath target) fs
      (ChunkStore.restoreFile c index db fs m target comp encrypted key).2 := by
  have hmk := Fs.addsFilesBelow_mkdirP (splitPath target) fs [] (splitPath (dirnameOf target))
  rcases restoreFile_cases c index db fs m target comp encrypted key with ⟨-, hr⟩ | ⟨fs₂, fs₃, h₂, h₃, hr⟩
  · rw [hr]; exact hmk
  · rw [hr]
    exact (hmk.trans (Fs.addsFilesBelow_writeFile h₂ (List.prefix_refl _))).trans
      (Fs.addsFilesBelow_writeFile h₃ (List.prefix_refl _))

namespace RestoreEngine

/-- The place `restore_job` restores a manifest to. -/
def targetOf (dest : String) (m : FileManifest) : String := dest ++ "/" ++ m.filePath

/-- A listed target `t` is the target of a manifest of `M`, and holds in `fs` bytes whose digest
is that manifest's `file_hash`. -/
def Intact (c : Codec) (M : List FileManifest) (dest : String) (fs : Fs) (t : String) : Prop :=
  ∃ m ∈ M, t = targetOf dest m ∧ ∃ b, fs.readFile (splitPath t) = some b ∧ toHex (c.sha256 b) = m.fileHash

variable (c : Codec) (index : ChunkIndex) (db : Db) (J : BackupJob) (key : Bytes32) {dest : String}
  {M : List FileManifest}

/-- Every target lies below the destination. -/
theorem prefix_splitPath_targetOf (dest : String) (m : FileManifest) :
    splitPath dest <+: splitPath (targetOf dest m) := by
  rw [targetOf, splitPath_append_slash]
  exact List.prefix_append _ _

/-- One manifest of `restore_job`'s loop: the filesystem is what `restore_file` leaves, and the
target is counted and listed when `restore_file` succeeded, and only then. -/
theorem restoreStep_cases (dest : String) (acc : RestoreResult × Fs) (m : FileManifest) :
    let f := restoreFile c index db (acc.2.mkdirPath (dirnameOf (targetOf dest m))) m
      (targetOf dest m) J.compression J.encrypt key
    let r := restoreStep c index db J key dest acc m
    r.2 = f.2 ∧ (f.1 = true ∧ r.1.filesRestored = acc.1.filesRestored + 1 ∧
        r.1.restoredFiles = acc.1.restoredFiles ++ [targetOf dest m] ∨
      f.1 = false ∧ r.1.filesRestored = acc.1.filesRestored ∧
        r.1.restoredFiles = acc.1.restoredFiles) := by
  unfold restoreStep targetOf
  dsimp only
  split
  · exact ⟨rfl, .inl ⟨‹_›, rfl, rfl⟩⟩
  · exact ⟨rfl, .inr ⟨Bool.eq_false_iff.2 ‹_›, rfl, rfl⟩⟩

/-- One manifest of the loop. From an owned destination whose listed targets are intact, are not
the manifest's target and are counted: the destination stays owned, the listed targets stay
intact, the manifest's target is listed only if it is intact, and the count follows the list. -/
theorem restoreStep_intact {acc : RestoreResult × Fs} {m : FileManifest} (hm : m ∈ M)
    (ho : acc.2.Owned (splitPath dest)) (hcount : acc.1.filesRestored = acc.1.restoredFiles.length)
    (hacc : ∀ t ∈ acc.1.restoredFiles, Intact c M dest acc.2 t ∧
      splitPath t ≠ splitPath (targetOf dest m)) :
    let r := restoreStep c index db J key dest acc m
    r.2.Owned (splitPath dest) ∧ r.1.filesRestored = r.1.restoredFiles.length ∧
      (∀ t ∈ acc.1.restoredFiles, Intact c M dest r.2 t) ∧
      ∀ t ∈ r.1.restoredFiles, t ∈ acc.1.restoredFiles ∨ t = targetOf dest m ∧ Intact c M dest r.2 t := by
  have ho₁ := ho.mkdirP [] (splitPath (dirnameOf (targetOf dest m)))
  obtain ⟨hfs, hr⟩ := restoreStep_cases c index db J key dest acc m
  dsimp only
  rw [hfs]
  -- the listed targets keep their bytes
  have hkeep : ∀ t ∈ acc.1.restoredFiles, Intact c M dest
      (restoreFile c index db (acc.2.mkdirPath (dirnameOf (targetOf dest m))) m (targetOf dest m)
        J.compression J.encrypt key).2 t := fun t ht => by
    obtain ⟨⟨m', hm', rfl, b, hb, hh⟩, hne⟩ := hacc t ht
    exact ⟨m', hm', rfl, b, ho₁.readFile_restoreFile_of_ne (prefix_splitPath_targetOf dest m') hne
      ((Fs.readFile_mkdirP ..).trans hb), hh⟩
  rcases hr with ⟨hok, hn, hl⟩ | ⟨-, hn, hl⟩
  · obtain ⟨b, hb, hh⟩ := restoreFile_intact hok
    refine ⟨ho₁.restoreFile, by rw [hn, hl, hcount, List.length_append, List.length_singleton],
      hkeep, fun t ht => ?_⟩
    rcases List.mem_append.1 (hl ▸ ht) with ht | ht
    · exact .inl ht
    · obtain rfl := List.mem_singleton.1 ht
      exact .inr ⟨rfl, m, hm, rfl, b, hb, hh⟩
  · exact ⟨ho₁.restoreFile, by rw [hn, hl, hcount], hkeep, fun t ht => .inl (hl ▸ ht)⟩

/-- `restore_job`'s loop over manifests of `M` with distinct targets, from an owned destination
whose listed targets are intact, are none of the remaining targets and are counted: when it ends,
every listed target is intact and counted. -/
theorem foldl_restoreStep_intact :
    ∀ (ms : List FileManifest) (acc : RestoreResult × Fs), (∀ m ∈ ms, m ∈ M) →
    (ms.map fun m => splitPath (targetOf dest m)).Nodup → acc.2.Owned (splitPath dest) →
    acc.1.filesRestored = acc.1.restoredFiles.length →
    (∀ t ∈ acc.1.restoredFiles, Intact c M dest acc.2 t ∧
      ∀ m ∈ ms, splitPath t ≠ splitPath (targetOf dest m)) →
    let r := ms.foldl (restoreStep c index db J key dest) acc
    r.1.filesRestored = r.1.restoredFiles.length ∧ ∀ t ∈ r.1.restoredFiles, Intact c M dest r.2 t
  | [], _, _, _, _, hcount, hacc => ⟨hcount, fun t ht => (hacc t ht).1⟩
  | m :: ms, acc, hms, hnd, ho, hcount, hacc => by
    rw [List.map_cons, List.nodup_cons] at hnd
    obtain ⟨ho', hcount', hkeep, hnew⟩ := restoreStep_intact c index db J key
      (hms m (List.mem_cons_self m ms)) ho hcount
      fun t ht => ⟨(hacc t ht).1, (hacc t ht).2 m (List.mem_cons_self m ms)⟩
    exact foldl_restoreStep_intact ms _ (fun m' hm' => hms m' (List.mem_cons_of_mem m hm'))
      hnd.2 ho' hcount' fun t ht => by
        rcases hnew t ht with ht | ⟨rfl, hi⟩
        · exact ⟨hkeep t ht, fun m' hm' => (hacc t ht).2 m' (List.mem_cons_of_mem m hm')⟩
        · exact ⟨hi, fun m' hm' he => hnd.1 (List.mem_map.2 ⟨m', hm', he.symm⟩)⟩

/-- The loop counts at most one file per manifest. -/
theorem foldl_restoreStep_le (dest : String) : ∀ (ms : List FileManifest) (acc : RestoreResult × Fs),
    (ms.foldl (restoreStep c index db J key dest) acc).1.filesRestored ≤
      acc.1.filesRestored + ms.length
  | [], _ => le_rfl
  | m :: ms, acc => by
    have h₁ := foldl_restoreStep_le dest ms (restoreStep c index db J key dest acc m)
    have h₂ : (restoreStep c index db J key dest acc m).1.filesRestored ≤
        acc.1.filesRestored + 1 := by
      rcases (restoreStep_cases c index db J key dest acc m).2 with ⟨-, h, -⟩ | ⟨-, h, -⟩ <;> omega
    rw [List.foldl_cons, List.length_cons]
    omega

/-- A loop, through a cache that agrees with the rows, that counts every manifest read, for each
chunk of each manifest, a row whose `storage_path` is not empty and names a regular file that
`fs₀` has, or that lies at or below the destination: the loop's own files appear there only. -/
theorem foldl_restoreStep_rows (hidx : index.Agrees db) (dest : String) (fs₀ : Fs) :
    ∀ (ms : List FileManifest) (acc : RestoreResult × Fs),
    Fs.AddsFilesBelow (splitPath dest) fs₀ acc.2 →
    (ms.foldl (restoreStep c index db J key dest) acc).1.filesRestored =
      acc.1.filesRestored + ms.length →
    ∀ m ∈ ms, ∀ ci ∈ m.chunks, ∃ row, db.getChunkMeta ci.hash = some row ∧ row.storagePath ≠ "" ∧
      ((∃ i, fs₀.lookup (splitPath row.storagePath) = some (.file i)) ∨
        splitPath dest <+: splitPath row.storagePath)
  | [], _, _, _ => nofun
  | m :: ms, acc, ha, hn => by
    obtain ⟨hfs, hr⟩ := restoreStep_cases c index db J key dest acc m
    have hle := foldl_restoreStep_le c index db J key dest ms (restoreStep c index db J key dest acc m)
    rw [List.foldl_cons, List.length_cons] at hn
    rcases hr with ⟨hok, hn₁, -⟩ | ⟨-, hn₁, -⟩
    · -- the manifest was restored: what `restore_file` read, then the rest of the loop
      have hbelow := prefix_splitPath_targetOf dest m
      have ha₁ := ha.trans (Fs.addsFilesBelow_mkdirP (splitPath dest) acc.2 []
        (splitPath (dirnameOf (targetOf dest m))))
      obtain ⟨fs₂, ha₂, hrows⟩ := restoreFile_rows hidx hok
      have hrest := foldl_restoreStep_rows hidx dest fs₀ ms _
        (hfs ▸ ha₁.trans (Fs.addsFilesBelow_restoreFile.mono hbelow)) (by omega)
      intro m' hm' ci hci
      rcases List.mem_cons.1 hm' with rfl | hm'
      · obtain ⟨row, hrow, hne, i, hi⟩ := hrows ci hci
        by_cases hs : splitPath dest <+: splitPath row.storagePath
        · exact ⟨row, hrow, hne, .inr hs⟩
        · exact ⟨row, hrow, hne, .inl ⟨i, ha₁.trans (ha₂.mono hbelow) _ _ hi hs⟩⟩
      · exact hrest m' hm' ci hci
    · -- the manifest was not counted, so the loop cannot count them all
      omega

end RestoreEngine

open RestoreEngine

namespace RestoreEngine

/-- Every path `restore_job` of job `jobId` into `dest` writes to, or makes, is one the kernel
resolves as the model does: the destination is `Fs.LinkFree`, and no manifest's path below it has
a `..` component. -/
def LinkFreeTargets (db : Db) (fs : Fs) (jobId : Int) (dest : String) : Prop :=
  fs.LinkFree (splitPath dest) ∧ ∀ m ∈ db.getFileManifests jobId, ".." ∉ splitPath m.filePath

instance (db : Db) (fs : Fs) (jobId : Int) (dest : String) :
    Decidable (LinkFreeTargets db fs jobId dest) :=
  inferInstanceAs (Decidable (_ ∧ _))

end RestoreEngine

/-- A restore never reports a file it did not restore intact. Take any database and any
filesystem, whatever the job's chunk rows and chunk files hold, any codec, and any cache of chunk
paths. Let the targets `dest/<file_path>` of the job's manifests be distinct, let each regular
file below `dest` be the only link to its inode, and let the targets be paths the kernel resolves
as the model does (`_htargets`). Then, when `restore_job` ends, `files_restored` is the number of
files it lists in `restored_files`, and each listed file is the target of one of the job's
manifests and holds bytes whose digest is that manifest's `file_hash`. -/
theorem restoreJob_intact {c : Codec} {index : ChunkIndex} {db : Db} {fs : Fs} {jobId : Int}
    {dest : String} (ho : fs.Owned (splitPath dest))
    (hnd : ((db.getFileManifests jobId).map fun m => splitPath (dest ++ "/" ++ m.filePath)).Nodup)
    (_htargets : LinkFreeTargets db fs jobId dest) :
    let r := restoreJob c index db fs jobId dest
    r.1.filesRestored = r.1.restoredFiles.length ∧
      ∀ t ∈ r.1.restoredFiles, ∃ m ∈ db.getFileManifests jobId, t = dest ++ "/" ++ m.filePath ∧
        ∃ b, r.2.readFile (splitPath t) = some b ∧ toHex (c.sha256 b) = m.fileHash := by
  unfold restoreJob
  -- a missing job, one not completed, one without its key, one without manifests: none listed
  split
  · exact ⟨rfl, nofun⟩
  split
  · exact ⟨rfl, nofun⟩
  split
  · exact ⟨rfl, nofun⟩
  dsimp only
  split
  · exact ⟨rfl, nofun⟩
  exact foldl_restoreStep_intact c index db _ _ _ _ (fun _ h => h) hnd (ho.mkdirP [] _) rfl nofun

/-- Job 1 of `pairStart`, backed up under `/var` and restored below `/restore` by a process that
has stored nothing, lists only files that hold bytes with their manifests' digests. -/
theorem pair_restore_intact :
    let r := restoreJob Codec.transparent .empty firstRun.2.db firstRun.2.fs 1 "/restore"
    r.1.filesRestored = r.1.restoredFiles.length ∧
      ∀ t ∈ r.1.restoredFiles, ∃ m ∈ firstRun.2.db.getFileManifests 1,
        t = "/restore" ++ "/" ++ m.filePath ∧
        ∃ b, r.2.readFile (splitPath t) = some b ∧ toHex (Codec.transparent.sha256 b) = m.fileHash :=
  restoreJob_intact (Fs.owned_of_files (by decide)) (by decide) (by decide)

/-- `verify_backup` passes every job that `restore_job` restores completely. Take any database,
filesystem and codec, a cache of chunk paths that holds only the rows' paths, and a destination at
or below which no chunk row's `storage_path` lies. Let the targets and the files the job's chunk
rows name be paths the kernel resolves as the model does, the latter read from the destination's
base (`_htargets`, `_hreads`). If
`restore_job` reports success and counts every manifest of the job as restored, then
`verify_backup` of the job, on the filesystem as it was before the restore, returns true. -/
theorem verifyBackup_of_restoreJob {c : Codec} {index : ChunkIndex} {db : Db} {fs : Fs}
    {jobId : Int} {dest : String} (hidx : index.Agrees db)
    (hdest : ∀ h row, db.getChunkMeta h = some row → ¬ splitPath dest <+: splitPath row.storagePath)
    (_htargets : LinkFreeTargets db fs jobId dest)
    (_hreads : ∀ m ∈ db.getFileManifests jobId, ∀ ci ∈ m.chunks,
      fs.LinkFree (splitPath (db.getChunkPath ci.hash)) ∧ SameBase dest (db.getChunkPath ci.hash))
    (hs : (restoreJob c index db fs jobId dest).1.success = true)
    (hall : (restoreJob c index db fs jobId dest).1.filesRestored =
      (db.getFileManifests jobId).length) :
    verifyBackup db fs jobId = true := by
  unfold restoreJob at hs hall
  unfold verifyBackup
  cases hj : db.getJob jobId with
  | none => simp [hj] at hs
  | some J =>
    by_cases hst : J.status = .completed
    · by_cases hkey : J.encrypt = true ∧ db.getEncryptionKey jobId = ""
      · simp [hj, hst, hkey] at hs
      · simp only [hj, hst, hkey, ne_eq, not_true_eq_false, ↓reduceIte] at hall ⊢
        rw [List.all_eq_true]
        intro m hm
        have hne : (db.getFileManifests jobId).isEmpty = false :=
          List.isEmpty_eq_false_iff_exists_mem.2 ⟨m, hm⟩
        simp only [hne, Bool.false_eq_true, ↓reduceIte] at hall
        have hrows := foldl_restoreStep_rows c index db J _ hidx dest fs _ ({}, fs.mkdirPath dest)
          (Fs.addsFilesBelow_mkdirP _ _ _ _) (by simpa using hall) m hm
        rw [List.all_eq_true]
        intro ci hci
        obtain ⟨row, hrow, hpath, hfile⟩ := hrows ci hci
        obtain ⟨i, hi⟩ := hfile.resolve_right (hdest _ _ hrow)
        simp [hrow, hpath, hi]
    · simp [hj, hst] at hs

/-- Job 1 of `pairStart`, backed up under `/var`, restores completely below `/restore` in a
process that has stored nothing, so it verifies. -/
theorem pair_restore_verifies : verifyBackup firstRun.2.db firstRun.2.fs 1 = true := by
  have hod : firstRun.2.db.OnDisk (storageDir "/var") firstRun.2.fs :=
    onDisk_of_reachable (Db.onDisk_of_no_chunks (fun _ => rfl) pairStart.fs)
      (.single (.execute _ _ _ _ _))
  exact @verifyBackup_of_restoreJob Codec.transparent .empty firstRun.2.db firstRun.2.fs 1
    "/restore" (ChunkIndex.agrees_empty _)
    (fun h row hrow hpre => (List.prefix_or_prefix_of_prefix (hod h row hrow).2.1 hpre).elim
      (by decide) (by decide)) (by decide) (by decide) (by decide) (by decide)

end FileBackup
