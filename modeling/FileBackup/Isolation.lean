import FileBackup.Dedup
import FileBackup.Manifest

/-!
# `store_file` while the source is written

`create_snapshot` mirrors the source with `link`, so each file of the snapshot names the same
inode as its source: a write to the source in place (`std::ofstream` truncates and rewrites the
inode) is seen through the snapshot. `store_file` looks at the file several times: `stat`,
`hash_file`, then one `file.read` per window on the stream it opened.

Here the environment's writes run at those points (a `Schedule`), and `store_file` reads the
inode its stream opened, at the stream's position:

* `Fs.writeAll`, `Schedule`, `ChunkStore.readLoop`, `ChunkStore.storeFileWith`;
* `storeFileWith_quiet`: with no write, and a store that shares no inode with the file, this is
  `storeFile`;
* `snapshot_torn_manifest`: after a consistent snapshot of `/data`, one write of `/data/a`
  between `hash_file` and the reads records a manifest whose size and hash are those of the old
  contents and whose only chunk holds the new ones.
-/

namespace FileBackup

namespace Fs

/-- The environment's writes at one point of a run, in order: each opens its path for writing
and writes its bytes; one that fails changes nothing. -/
def writeAll (fs : Fs) (ws : List (Path × Bytes)) : Fs :=
  ws.foldl (fun fs w => (fs.writeFile w.1 w.2).getD fs) fs

@[simp] theorem writeAll_nil (fs : Fs) : fs.writeAll [] = fs := rfl

end Fs

/-- The environment's writes at each yield point of one `store_file`: `0` before `stat`, `1`
before `hash_file`, `2` before the stream opens, and `3 + i` before the `i`-th `file.read`. -/
abbrev Schedule := Nat → List (Path × Bytes)

namespace ChunkStore

/-- The loop of `store_file` on the inode `ino` its stream opened, at stream position `pos`,
the `i`-th read next. The scheduled writes run, then `file.read` takes up to `CHUNK_SIZE` bytes
at `pos` of the inode as it is now. An empty read ends the loop (`bytes_read <= 0`); a short one
sets `eofbit`, so the window is stored and `while (file)` ends the loop. At most `fuel` reads. -/
def readLoop (sched : Schedule) (env : Env) (storageDir : String) (comp : CompressionType)
    (encrypt : Bool) (key : Bytes32) (ino : Nat) : Nat → Nat → Nat → Loop → Loop
  | 0, _, _, l => l
  | fuel + 1, i, pos, l =>
    let l := { l with sys := { l.sys with fs := l.sys.fs.writeAll (sched (3 + i)) } }
    let chunk := ((l.sys.fs.inodes ino).drop pos).take chunkSize
    if chunk = [] then l
    else if chunk.length < chunkSize then chunkStep env storageDir comp encrypt key l chunk
    else readLoop sched env storageDir comp encrypt key ino fuel (i + 1) (pos + chunkSize)
      (chunkStep env storageDir comp encrypt key l chunk)

/-- `store_file` with the environment's writes `sched` at its yield points and at most `fuel`
reads: the size comes from `stat`, the hash from `hash_file` a moment later, and the windows
from the stream's reads of the inode the path names when it opens. -/
def storeFileWith (sched : Schedule) (fuel : Nat) (env : Env) (storageDir : String) (s : Sys)
    (filePath : String) (comp : CompressionType) (encrypt : Bool) (key : Bytes32) (jobId : Int)
    (relativePath : String) : FileManifest × Sys :=
  let manifest : FileManifest :=
    { filePath := if relativePath = "" then filePath else relativePath
      fileName := basenameOf filePath }
  let p := splitPath filePath
  let s := { s with fs := s.fs.writeAll (sched 0) }
  match s.fs.statSize p with
  | none => (manifest, s)
  | some size =>
    let s := { s with fs := s.fs.writeAll (sched 1) }
    let manifest :=
      { manifest with fileSize := size, fileHash := toHex (hashFile env.codec s.fs p) }
    let s := { s with fs := s.fs.writeAll (sched 2) }
    match s.fs.lookup p with
    | some (.file ino) =>
      let l := readLoop sched env storageDir comp encrypt key ino fuel 0 0 ⟨[], 0, 0, s⟩
      let manifest := { manifest with chunks := l.chunks }
      (manifest, (l.sys.write env .storeFileManifest fun db ok =>
        db.storeFileManifest jobId manifest ok).2)
    | _ => (manifest, s)

/-! ### Without the environment's writes -/

/-- The reads of a loop do not depend on its fuel once it covers the data. -/
theorem readChunks_congr : ∀ (n m : Nat) (data : Bytes), data.length ≤ n → data.length ≤ m →
    readChunks n data = readChunks m data
  | 0, m, data, hn, _ => by
    rw [List.length_eq_zero.1 (Nat.le_zero.1 hn)]
    cases m <;> rfl
  | n + 1, 0, data, _, hm => by
    rw [List.length_eq_zero.1 (Nat.le_zero.1 hm)]
    rfl
  | n + 1, m + 1, data, hn, hm => by
    unfold readChunks
    split
    · rfl
    · rename_i hne
      have := List.length_pos.2 hne
      have := chunkSize_pos
      rw [readChunks_congr n m _ (by simp; omega) (by simp; omega)]

/-- Without writes, and while the store keeps apart from the file at `p` with inode `ino`, each
read takes the next window of the inode's bytes: the loop is the fold of `chunkStep` over the
windows from `pos` on. -/
theorem readLoop_quiet {env : Env} {storageDir : String} {comp : CompressionType}
    {encrypt : Bool} {key : Bytes32} {ino : Nat} {p : Path} (hp : ¬ splitPath storageDir <+: p) :
    ∀ (fuel i pos : Nat) (l : Loop), l.sys.fs.Confined (splitPath storageDir) →
      l.sys.fs.lookup p = some (.file ino) → ((l.sys.fs.inodes ino).drop pos).length < fuel →
      readLoop (fun _ => []) env storageDir comp encrypt key ino fuel i pos l =
        (readChunks fuel ((l.sys.fs.inodes ino).drop pos)).foldl
          (chunkStep env storageDir comp encrypt key) l
  | 0, _, _, _, _, _, h => absurd h (Nat.not_lt_zero _)
  | fuel + 1, i, pos, l, hconf, hl, hlen => by
    have hcs := chunkSize_pos
    simp only [readLoop, Fs.writeAll_nil]
    unfold readChunks
    by_cases hd : (l.sys.fs.inodes ino).drop pos = []
    · simp [hd]
    · have hpos := List.length_pos.2 hd
      have htake : ((l.sys.fs.inodes ino).drop pos).take chunkSize ≠ [] := by
        simp only [ne_eq, List.take_eq_nil_iff, not_or]
        exact ⟨hcs.ne', hd⟩
      simp only [htake, hd, ↓reduceIte, List.foldl_cons]
      split
      · rename_i hshort
        have : ((l.sys.fs.inodes ino).drop pos).drop chunkSize = [] := by
          simp only [List.length_take] at hshort
          simp only [List.drop_eq_nil_iff]
          omega
        rw [this]
        cases fuel <;> simp [readChunks]
      · rename_i hlong
        obtain ⟨hkeep, hconf'⟩ := writesWithin_chunkStep env storageDir comp encrypt key l
          (((l.sys.fs.inodes ino).drop pos).take chunkSize) hconf
        obtain ⟨hl', hino⟩ := hkeep p ino hp hl
        rw [readLoop_quiet hp fuel (i + 1) (pos + chunkSize) _ hconf' hl' (by
          simp only [hino, List.length_drop, List.length_take] at hlen hlong ⊢; omega), hino,
          List.drop_drop]

/-- With no write of the environment, on a file outside a store that keeps apart, and with
fuel for more reads than the file has bytes, the interleaved `store_file` is `store_file`. -/
theorem storeFileWith_quiet (fuel : Nat) (env : Env) (storageDir : String) (s : Sys)
    (filePath : String) (comp : CompressionType) (encrypt : Bool) (key : Bytes32) (jobId : Int)
    (relativePath : String) (hconf : s.fs.Confined (splitPath storageDir))
    (hout : ¬ splitPath storageDir <+: splitPath filePath)
    (hfuel : ∀ data, s.fs.readFile (splitPath filePath) = some data → data.length < fuel) :
    storeFileWith (fun _ => []) fuel env storageDir s filePath comp encrypt key jobId
      relativePath = storeFile env storageDir s filePath comp encrypt key jobId relativePath := by
  simp only [storeFileWith, storeFile, Fs.writeAll_nil, Fs.readFile]
  cases s.fs.statSize (splitPath filePath) with
  | none => rfl
  | some size =>
    cases hino : s.fs.lookup (splitPath filePath) with
    | none => rfl
    | some n =>
      cases n with
      | file ino =>
        have hlen : (s.fs.inodes ino).length < fuel := hfuel _ (by simp [Fs.readFile, hino])
        simp only
        rw [readLoop_quiet hout fuel 0 0 ⟨[], 0, 0, s⟩ hconf hino (by simpa using hlen),
          List.drop_zero, windows, readChunks_congr fuel _ _ hlen.le le_rfl]
      | _ => rfl

/-! ### A write between `hash_file` and the reads -/

/-- After `create_snapshot` of `/data` (the one file `/data/a = [7]`) as job `1` at clock `5`,
the source file `/data/a` is rewritten in place to `[8, 9]` once `hash_file` has run and before
`store_file`'s stream opens the snapshot's `a`. The snapshot was consistent and lists that file;
since its `a` is a hard link to the source's inode, the recorded manifest, the only one of the
job, has the size and hash of `[7]`, and its one chunk is the window `[8, 9]`: two bytes whose
digest is not the file's. The libraries are `Codec.transparent`, which meets `Codec.Lawful`, and
every call succeeds. -/
theorem snapshot_torn_manifest (fuel : Nat) :
    let snap : SnapshotInfo × Fs := createSnapshot oneFileFs (snapshotsDir "/var") 1 "/data" 5
    let file : String := snap.1.snapshotPath ++ "/a"
    let sched : Schedule := fun n => if n = 2 then [(["data", "a"], [8, 9])] else []
    let r : FileManifest × Sys := storeFileWith sched (fuel + 1) (Env.reliable Codec.transparent)
      (storageDir "/var") { oneFileStart with fs := snap.2 } file .lz4 true Bytes32.zero 1 "a"
    Codec.transparent.Lawful ∧ snap.1.isConsistent = true ∧ listFiles snap.2 snap.1 = [file] ∧
      r.2.failed = [] ∧ r.2.db.getFileManifests 1 = [r.1] ∧
      r.1.fileSize = 1 ∧ r.1.fileHash = toHex (Codec.transparent.sha256 [7]) ∧
      r.1.chunks.map (fun c => (c.hash, c.size)) = [(Codec.transparent.hashHex [8, 9], 2)] ∧
      Codec.transparent.sha256 [8, 9] ≠ Codec.transparent.sha256 [7] :=
  ⟨Codec.transparent_lawful, by decide, by decide, rfl, rfl, rfl, rfl, rfl, by decide⟩

end ChunkStore

end FileBackup
