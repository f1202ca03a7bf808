import FileBackup.Codec
import FileBackup.Fs
import FileBackup.Database

/-!
# The chunk store (`storage/chunk_store.h`)

`ChunkStore::store_file` cuts a file into 64 KiB windows and, for each, either records it as a
duplicate (its hash is in `chunks`) or compresses, encrypts and writes it under its hash and
calls `store_chunk`; then it stores the manifest. `ChunkStore::restore_file` inverts this.

* `Sys`: what a worker acts on, the metadata store and the filesystem, with two ghost fields:
  the number of metadata writes made, which indexes `Env.dbOk`, and the calls that failed;
* `windows`: the reads of `store_file`'s loop; `encodeChunk`: compress, then encrypt;
* `chunkStep` (the loop body, with its `continue`s), `storeFile`;
* `ChunkIndex` (`chunk_index_`), `decodeChunks` and `restoreFile`, with both integrity checks.

The hash map `dedup_index_` is a cache that nothing reads. The B+ tree `chunk_index_` is read by
`restore_file`, which takes a chunk's path from it when it has one and asks `get_chunk_path`
otherwise; it is a parameter of the restore (`ChunkIndex`): `ChunkIndex.empty` in a process that
has stored nothing (the `--restore` command), and any cache in one whose workers ran in it.
`store_file` inserts into it after `store_chunk`, whether or not the row was written; that insert
is not modelled, and a cache that only holds what the rows say is `ChunkIndex.Agrees`.
-/

namespace FileBackup

/-- The calls of the worker that can fail. -/
inductive Call
  | updateJobStatus
  | updateJobStats
  | storeChunk
  | storeFileManifest
  | storeEncryptionKey
  | compress
  | encrypt
  | writeChunk
  | createSnapshot
  deriving DecidableEq, Repr

/-- The world's answers: the libraries, and whether the `n`-th metadata write of the run goes
through (`false`: a failed prepare or step, or `SQLITE_BUSY` after the retries). -/
structure Env where
  codec : Codec
  dbOk : Nat → Bool

/-- A world in which every metadata write goes through. -/
def Env.reliable (c : Codec) : Env := ⟨c, fun _ => true⟩

/-- What a worker acts on. `writes` and `failed` are ghost state: the metadata writes made so
far, and the calls that failed, in order. -/
structure Sys where
  db : Db
  fs : Fs
  writes : Nat := 0
  failed : List Call := []

namespace Sys

/-- A metadata write `w`, run with the oracle's answer for its index; a `false` result is a failed
call. -/
def write (s : Sys) (env : Env) (call : Call) (w : Db → Bool → Bool × Db) : Bool × Sys :=
  let r := w s.db (env.dbOk s.writes)
  (r.1, { s with
    db := r.2
    writes := s.writes + 1
    failed := if r.1 then s.failed else s.failed ++ [call] })

@[simp] theorem write_db (s : Sys) (env : Env) (c : Call) (w : Db → Bool → Bool × Db) :
    (s.write env c w).2.db = (w s.db (env.dbOk s.writes)).2 := rfl

@[simp] theorem write_fs (s : Sys) (env : Env) (c : Call) (w : Db → Bool → Bool × Db) :
    (s.write env c w).2.fs = s.fs := rfl

theorem failed_write (s : Sys) (env : Env) (c : Call) (w : Db → Bool → Bool × Db) :
    (s.write env c w).2.failed =
      if (w s.db (env.dbOk s.writes)).1 then s.failed else s.failed ++ [c] := rfl

theorem prefix_failed_write (s : Sys) (env : Env) (c : Call) (w : Db → Bool → Bool × Db) :
    s.failed <+: (s.write env c w).2.failed := by
  rw [failed_write]; split
  · exact List.prefix_refl _
  · exact List.prefix_append _ _

/-- A write that adds no failed call went through. -/
theorem ok_of_failed_write {s : Sys} {env : Env} {c : Call} {w : Db → Bool → Bool × Db}
    (h : (s.write env c w).2.failed = s.failed) : (w s.db (env.dbOk s.writes)).1 = true := by
  rw [failed_write] at h
  by_contra hf
  simp [hf] at h

@[simp] theorem write_writes (s : Sys) (env : Env) (c : Call) (w : Db → Bool → Bool × Db) :
    (s.write env c w).2.writes = s.writes + 1 := rfl

end Sys

/-- `SHA256::hash_file`: the digest of the file's bytes, the zero digest when it does not open. -/
def hashFile (c : Codec) (fs : Fs) (p : Path) : Bytes32 :=
  match fs.readFile p with
  | some data => c.sha256 data
  | none => Bytes32.zero

/-- The reads `file.read(buffer, CHUNK_SIZE)` returns, at most `fuel` of them. -/
def readChunks : Nat → Bytes → List Bytes
  | 0, _ => []
  | fuel + 1, data =>
    if data = [] then [] else data.take chunkSize :: readChunks fuel (data.drop chunkSize)

/-- The windows of `store_file`'s loop: 64 KiB each, the last one possibly shorter. -/
def windows (data : Bytes) : List Bytes := readChunks data.length data

theorem sum_length_readChunks : ∀ (n : Nat) (data : Bytes), data.length ≤ n →
    ((readChunks n data).map List.length).sum = data.length
  | 0, data, h => by simp [readChunks, List.length_eq_zero.1 (Nat.le_zero.1 h)]
  | n + 1, data, h => by
    unfold readChunks
    split
    · simp_all
    · rename_i hne
      have hpos := List.length_pos.2 hne
      have := chunkSize_pos
      rw [List.map_cons, List.sum_cons, sum_length_readChunks n _ (by simp; omega)]
      simp only [List.length_take, List.length_drop]
      omega

/-- The windows tile the data. -/
theorem sum_length_windows (data : Bytes) : ((windows data).map List.length).sum = data.length :=
  sum_length_readChunks _ _ le_rfl

/-- The reads, in order, are the data. -/
theorem flatten_readChunks : ∀ (n : Nat) (data : Bytes), data.length ≤ n →
    (readChunks n data).flatten = data
  | 0, data, h => by simp [readChunks, List.length_eq_zero.1 (Nat.le_zero.1 h)]
  | n + 1, data, h => by
    unfold readChunks
    split
    · simp_all
    · have := List.length_pos.2 ‹_›
      have := chunkSize_pos
      rw [List.flatten_cons, flatten_readChunks n _ (by simp; omega), List.take_append_drop]

/-- Every read returns between one byte and `CHUNK_SIZE` bytes. -/
theorem mem_readChunks : ∀ {n : Nat} {data w : Bytes}, w ∈ readChunks n data →
    w ≠ [] ∧ w.length ≤ chunkSize
  | 0, _, _, h => by simp [readChunks] at h
  | n + 1, data, w, h => by
    unfold readChunks at h
    split at h
    · simp at h
    · rcases List.mem_cons.1 h with rfl | h
      · exact ⟨by simp [List.take_eq_nil_iff, chunkSize, *], List.length_take_le _ _⟩
      · exact mem_readChunks h

namespace ChunkStore

/-- `get_chunk_path`: `<storage>/chunks/<hex[0..2]>/<hex[2..4]>/<hex>`. -/
def getChunkPath (storageDir hash : String) : String :=
  storageDir ++ "/chunks/" ++ ⟨hash.data.take 2⟩ ++ "/" ++ ⟨(hash.data.drop 2).take 2⟩ ++ "/" ++
    hash

/-- The transform of a new chunk: compress unless `NONE` (the raw bytes when the compressor
returns nothing), then encrypt if asked; `none` when encryption returns nothing. The failed
calls come second. -/
def encodeChunk (c : Codec) (comp : CompressionType) (encrypt : Bool) (key : Bytes32)
    (chunk : Bytes) : Option Bytes × List Call :=
  let compressed : Bytes × List Call :=
    if comp = .none then (chunk, [])
    else if c.compress comp chunk = [] then (chunk, [.compress])
    else (c.compress comp chunk, [])
  if encrypt then
    if c.encrypt key compressed.1 = [] then (none, compressed.2 ++ [.encrypt])
    else (some (c.encrypt key compressed.1), compressed.2)
  else (some compressed.1, compressed.2)

/-- The state of `store_file`'s loop: the manifest's chunks so far, `offset`, `chunk_idx`. -/
structure Loop where
  chunks : List ChunkInfo
  offset : Nat
  idx : Nat
  sys : Sys

/-- The loop after recording the window `chunk` with hash `hash`: the chunk is appended, and
`offset` and `chunk_idx` advance. -/
def Loop.push (l : Loop) (hash : String) (chunk : Bytes) (s : Sys) (dedup : Bool) : Loop :=
  let ci : ChunkInfo :=
    { hash, offset := l.offset, size := chunk.length, chunkIndex := l.idx, deduplicated := dedup }
  ⟨l.chunks ++ [ci], l.offset + chunk.length, l.idx + 1, s⟩

@[simp] theorem Loop.push_sys (l : Loop) (h : String) (c : Bytes) (s : Sys) (d : Bool) :
    (l.push h c s d).sys = s := rfl

@[simp] theorem Loop.push_chunks (l : Loop) (h : String) (c : Bytes) (s : Sys) (d : Bool) :
    (l.push h c s d).chunks = l.chunks ++
      [{ hash := h, offset := l.offset, size := c.length, chunkIndex := l.idx, deduplicated := d }] :=
  rfl

/-- The loop body of `store_file` on one window. A chunk whose hash is in `chunks` is recorded
as deduplicated; any other is encoded, written under its hash and given to `store_chunk`, whose
result is not looked at. A failed encryption or chunk write skips the window (`continue`): it is
not recorded and `offset` and `chunk_idx` do not advance. -/
def chunkStep (env : Env) (storageDir : String) (comp : CompressionType) (encrypt : Bool)
    (key : Bytes32) (l : Loop) (chunk : Bytes) : Loop :=
  let hash := env.codec.hashHex chunk
  if l.sys.db.chunkExists hash then l.push hash chunk l.sys true
  else
    let enc := encodeChunk env.codec comp encrypt key chunk
    let s := { l.sys with failed := l.sys.failed ++ enc.2 }
    match enc.1 with
    | none => { l with sys := s }
    | some processed =>
      let path := getChunkPath storageDir hash
      let fs := s.fs.mkdirPath (dirnameOf path)
      match fs.writeFile (splitPath path) processed with
      | none => { l with sys := { s with fs, failed := s.failed ++ [.writeChunk] } }
      | some fs =>
        l.push hash chunk ({ s with fs }.write env .storeChunk fun db ok =>
          db.storeChunk hash path chunk.length processed.length comp encrypt ok).2 false

/-- `store_file(file_path, comp, encrypt, key, job_id, relative_path)`: stat the file, hash it
whole, run the loop over its windows, store the manifest (whose result is not looked at). A file
that does not stat or open gives a manifest with no chunks and stores nothing. -/
def storeFile (env : Env) (storageDir : String) (s : Sys) (filePath : String)
    (comp : CompressionType) (encrypt : Bool) (key : Bytes32) (jobId : Int)
    (relativePath : String) : FileManifest × Sys :=
  let manifest : FileManifest :=
    { filePath := if relativePath = "" then filePath else relativePath
      fileName := basenameOf filePath }
  let p := splitPath filePath
  match s.fs.statSize p with
  | none => (manifest, s)
  | some size =>
    let manifest :=
      { manifest with fileSize := size, fileHash := toHex (hashFile env.codec s.fs p) }
    match s.fs.readFile p with
    | none => (manifest, s)
    | some data =>
      let l := (windows data).foldl (chunkStep env storageDir comp encrypt key) ⟨[], 0, 0, s⟩
      let manifest := { manifest with chunks := l.chunks }
      (manifest, (l.sys.write env .storeFileManifest fun db ok =>
        db.storeFileManifest jobId manifest ok).2)

/-- `chunk_index_`: the path of each chunk file the process wrote, by the chunk's hash. The
restore only calls the tree's `find`, a map lookup (`BPlusTree.Refines.find_eq`). -/
def ChunkIndex : Type := String → Option String

/-- The cache of a process that has stored nothing. -/
def ChunkIndex.empty : ChunkIndex := fun _ => none

/-- The path `restore_file` reads a chunk from: the cached one, else `get_chunk_path`. -/
def ChunkIndex.path (index : ChunkIndex) (db : Db) (hash : String) : String :=
  (index hash).getD (db.getChunkPath hash)

/-- Every path the cache holds is the one `store_file` writes the chunk to in the store
`storageDir`: the cache of every process whose store it is, since `store_file` inserts the
`get_chunk_path` of the hash, whatever `store_chunk` returned. -/
def ChunkIndex.InStore (index : ChunkIndex) (storageDir : String) : Prop :=
  ∀ hash p, index hash = some p → p = getChunkPath storageDir hash

/-- Every path the cache holds is the one the chunk's row names: the cache of a process each of
whose `store_chunk` calls went through. -/
def ChunkIndex.Agrees (index : ChunkIndex) (db : Db) : Prop :=
  ∀ hash p, index hash = some p → p = db.getChunkPath hash

@[simp] theorem ChunkIndex.path_empty (db : Db) (hash : String) :
    ChunkIndex.empty.path db hash = db.getChunkPath hash := rfl

theorem ChunkIndex.inStore_empty (storageDir : String) : ChunkIndex.empty.InStore storageDir :=
  fun _ _ h => nomatch h

theorem ChunkIndex.agrees_empty (db : Db) : ChunkIndex.empty.Agrees db := fun _ _ h => nomatch h

/-- A chunk whose row names its place in the store is read from there, cached or not. -/
theorem ChunkIndex.InStore.path {index : ChunkIndex} {storageDir : String} {db : Db}
    {hash : String} (h : index.InStore storageDir)
    (hrow : db.getChunkPath hash = getChunkPath storageDir hash) :
    index.path db hash = getChunkPath storageDir hash := by
  unfold ChunkIndex.path
  cases hi : index hash with
  | none => exact hrow
  | some p => exact h hash p hi

theorem ChunkIndex.Agrees.path {index : ChunkIndex} {db : Db} (h : index.Agrees db)
    (hash : String) : index.path db hash = db.getChunkPath hash := by
  unfold ChunkIndex.path
  cases hi : index hash with
  | none => rfl
  | some p => exact h hash p hi

/-- The loop of `restore_file` over a manifest's chunks: each is looked up, read, decrypted,
decompressed and checked against its hash, then appended; the first failure ends the loop.
Whether every chunk went through, and the bytes appended. -/
def decodeChunks (c : Codec) (index : ChunkIndex) (db : Db) (fs : Fs) (comp : CompressionType)
    (encrypted : Bool) (key : Bytes32) : List ChunkInfo → Bool × Bytes
  | [] => (true, [])
  | ci :: rest =>
    let path := index.path db ci.hash
    match fs.readFile (splitPath path) with
    | none => (false, [])
    | some raw =>
      let data := if encrypted then c.decrypt key raw else raw
      let data' := if comp = .none then data else c.decompress comp data ci.size
      if path = "" ∨ (encrypted ∧ data = []) ∨ (comp ≠ .none ∧ data' = []) ∨
          c.hashHex data' ≠ ci.hash then (false, [])
      else
        let r := decodeChunks c index db fs comp encrypted key rest
        (r.1, data' ++ r.2)

/-- `restore_file(manifest, dest_path, comp, encrypted, key)`: open the target, append the
decoded chunks, then compare the hash of the written file with the manifest's. On a failure
the target keeps what was appended before it. -/
def restoreFile (c : Codec) (index : ChunkIndex) (db : Db) (fs : Fs) (manifest : FileManifest)
    (destPath : String) (comp : CompressionType) (encrypted : Bool) (key : Bytes32) : Bool × Fs :=
  let fs := fs.mkdirPath (dirnameOf destPath)
  let dest := splitPath destPath
  match fs.writeFile dest [] with
  | none => (false, fs)
  | some fs =>
    let r := decodeChunks c index db fs comp encrypted key manifest.chunks
    let fs := (fs.writeFile dest r.2).getD fs
    (r.1 && toHex (hashFile c fs dest) == manifest.fileHash, fs)

/-! ### Steps without a failed call -/

/-- A relation that every step of a fold establishes, and that composes, holds from the start of
the fold to its end. -/
theorem foldl_rel {α β : Type} (R : β → β → Prop) (hrefl : ∀ b, R b b)
    (htrans : ∀ {a b c}, R a b → R b c → R a c) (f : β → α → β) (hf : ∀ b a, R b (f b a)) :
    ∀ (as : List α) (b : β), R b (as.foldl f b)
  | [], b => hrefl b
  | a :: as, b => htrans (hf b a) (foldl_rel R hrefl htrans f hf as _)

/-- A list squeezed between a prefix and itself. -/
theorem prefix_squeeze {a b c : List Call} (h₁ : a <+: b) (h₂ : b <+: c) (h : c = a) : b = a :=
  (h₁.eq_of_length (le_antisymm h₁.length_le (h ▸ h₂.length_le))).symm

/-- The failed calls of a run only grow, so a run whose list of failed calls did not grow had
no failed step: a property that every step without a failed call keeps holds at its end. -/
theorem foldl_clean {α β : Type} (f : β → α → β) (F : β → List Call)
    (hf : ∀ b a, F b <+: F (f b a)) (P : β → Prop) (hP : ∀ b a, P b → F (f b a) = F b → P (f b a)) :
    ∀ (as : List α) (b : β), P b → F (as.foldl f b) = F b → P (as.foldl f b)
  | [], _, hb, _ => hb
  | a :: as, b, hb, h => by
    have h₁ : F (f b a) = F b :=
      prefix_squeeze (hf b a) (foldl_rel (fun x y => F x <+: F y) (fun _ => List.prefix_refl _)
        (fun h h' => h.trans h') f hf as _) h
    exact foldl_clean f F hf P hP as (f b a) (hP b a hb h₁) (h.trans h₁.symm)

/-- A fold in which each step without a failed call establishes `P` of its element, and every
step keeps `P` of the elements before it, ends with `P` of every element when no step failed.
`Q` is what every step keeps and the steps need. -/
theorem foldl_clean_mem {α β : Type} (f : β → α → β) (F : β → List Call)
    (hf : ∀ b a, F b <+: F (f b a)) (Q : β → Prop) (hQ : ∀ b a, Q b → Q (f b a))
    (P : β → α → Prop) (hP : ∀ b a, Q b → F (f b a) = F b → P (f b a) a)
    (hkeep : ∀ b a x, P b x → P (f b a) x) :
    ∀ (as : List α) (b : β), Q b → F (as.foldl f b) = F b → ∀ x ∈ as, P (as.foldl f b) x
  | [], _, _, _, _, hx => by cases hx
  | a :: as, b, hb, h, x, hx => by
    have h₁ : F (f b a) = F b :=
      prefix_squeeze (hf b a) (foldl_rel (fun x y => F x <+: F y) (fun _ => List.prefix_refl _)
        (fun h h' => h.trans h') f hf as _) h
    rcases List.mem_cons.1 hx with rfl | hx
    · exact foldl_rel (fun b b' => P b x → P b' x) (fun _ => id) (fun h h' => h' ∘ h) f
        (fun b a => hkeep b a x) as _ (hP b x hb h₁)
    · exact foldl_clean_mem f F hf Q hQ P hP hkeep as (f b a) (hQ b a hb) (h.trans h₁.symm) x hx

theorem encodeChunk_of_clean {c : Codec} {comp : CompressionType} {encrypt : Bool} {key : Bytes32}
    {chunk : Bytes} (h : (encodeChunk c comp encrypt key chunk).2 = []) :
    ∃ processed, encodeChunk c comp encrypt key chunk = (some processed, []) := by
  unfold encodeChunk at h ⊢
  generalize (if comp = .none then _ else _ : Bytes × List Call) = r at h ⊢
  cases encrypt with
  | false => exact ⟨_, Prod.ext rfl h⟩
  | true =>
    rw [if_pos rfl] at h ⊢
    split at h
    · simp at h
    · rw [if_neg ‹_›]; exact ⟨_, Prod.ext rfl h⟩

theorem prefix_failed_chunkStep (env : Env) (storageDir : String) (comp : CompressionType)
    (encrypt : Bool) (key : Bytes32) (l : Loop) (chunk : Bytes) :
    l.sys.failed <+: (chunkStep env storageDir comp encrypt key l chunk).sys.failed := by
  dsimp only [chunkStep]
  split
  · exact List.prefix_refl _
  · split
    · exact List.prefix_append _ _
    · split
      · simp [List.append_assoc]
      · rw [Loop.push_sys, Sys.failed_write]
        split <;> simp [List.append_assoc]

/-- A step of the loop without a failed call records a chunk already in `chunks` as
deduplicated, or encodes the chunk without failure, writes its file, `store_chunk`s it with
success and records it. -/
theorem chunkStep_of_clean {env : Env} {storageDir : String} {comp : CompressionType}
    {encrypt : Bool} {key : Bytes32} {l : Loop} {w : Bytes}
    (h : (chunkStep env storageDir comp encrypt key l w).sys.failed = l.sys.failed) :
    (l.sys.db.chunkExists (env.codec.hashHex w) = true ∧
      chunkStep env storageDir comp encrypt key l w = l.push (env.codec.hashHex w) w l.sys true) ∨
    (l.sys.db.chunkExists (env.codec.hashHex w) = false ∧ ∃ processed fs,
      encodeChunk env.codec comp encrypt key w = (some processed, []) ∧
      (l.sys.fs.mkdirPath (dirnameOf (getChunkPath storageDir (env.codec.hashHex w)))).writeFile
        (splitPath (getChunkPath storageDir (env.codec.hashHex w))) processed = some fs ∧
      env.dbOk l.sys.writes = true ∧
      chunkStep env storageDir comp encrypt key l w = l.push (env.codec.hashHex w) w
        ⟨(l.sys.db.storeChunk (env.codec.hashHex w) (getChunkPath storageDir (env.codec.hashHex w))
          w.length processed.length comp encrypt true).2, fs, l.sys.writes + 1, l.sys.failed⟩
        false) := by
  revert h
  dsimp only [chunkStep]
  split
  · exact fun _ => .inl ⟨by assumption, rfl⟩
  · rename_i hne
    have hne' : l.sys.db.chunkExists (env.codec.hashHex w) = false := by simpa using hne
    split
    · rename_i hnone
      intro h
      simp only [List.append_right_eq_self] at h
      obtain ⟨p, hp⟩ := encodeChunk_of_clean h
      rw [hp] at hnone; cases hnone
    · rename_i processed hproc
      split
      · intro h; simp at h
      · rename_i fs hfs
        intro h
        simp only [Loop.push_sys, Sys.failed_write, Db.storeChunk] at h
        have hok : env.dbOk l.sys.writes = true := by
          by_contra hf; simp [hf] at h
        simp only [hok, ↓reduceIte, List.append_right_eq_self] at h
        obtain ⟨p, hp⟩ := encodeChunk_of_clean h
        rw [hp] at hproc; cases hproc
        refine .inr ⟨hne', processed, fs, hp, hfs, hok, ?_⟩
        simp [Sys.write, Db.storeChunk, hok, hp]

theorem prefix_failed_foldl_chunkStep (env : Env) (storageDir : String) (comp : CompressionType)
    (encrypt : Bool) (key : Bytes32) (ws : List Bytes) (l : Loop) :
    l.sys.failed <+: (ws.foldl (chunkStep env storageDir comp encrypt key) l).sys.failed :=
  foldl_rel (fun x y : Loop => x.sys.failed <+: y.sys.failed) (fun _ => List.prefix_refl _)
    (fun h h' => h.trans h') _ (prefix_failed_chunkStep env storageDir comp encrypt key) ws l

/-- `store_file` on a regular file: the loop runs over the windows of the inode's bytes, and the
manifest, with the file's length and digest, is stored. -/
theorem storeFile_of_file (env : Env) (storageDir : String) {s : Sys} {filePath : String}
    (comp : CompressionType) (encrypt : Bool) (key : Bytes32) (jobId : Int) (rel : String) {i : Nat}
    (h : s.fs.lookup (splitPath filePath) = some (.file i)) :
    storeFile env storageDir s filePath comp encrypt key jobId rel =
      let l := (windows (s.fs.inodes i)).foldl (chunkStep env storageDir comp encrypt key)
        ⟨[], 0, 0, s⟩
      let m : FileManifest :=
        { filePath := if rel = "" then filePath else rel, fileName := basenameOf filePath,
          fileSize := (s.fs.inodes i).length, fileHash := toHex (env.codec.sha256 (s.fs.inodes i)),
          chunks := l.chunks }
      (m, (l.sys.write env .storeFileManifest fun db ok => db.storeFileManifest jobId m ok).2) := by
  simp [storeFile, Fs.statSize, Fs.readFile, hashFile, h]

theorem prefix_failed_storeFile (env : Env) (storageDir : String) (s : Sys) (filePath : String)
    (comp : CompressionType) (encrypt : Bool) (key : Bytes32) (jobId : Int) (rel : String) :
    s.failed <+: (storeFile env storageDir s filePath comp encrypt key jobId rel).2.failed := by
  dsimp only [storeFile]
  split
  · exact List.prefix_refl _
  · split
    · exact List.prefix_refl _
    · rename_i data _
      refine (prefix_failed_foldl_chunkStep env storageDir comp encrypt key (windows data)
        ⟨[], 0, 0, s⟩).trans ?_
      dsimp only
      exact Sys.prefix_failed_write _ _ _ _

/-! ### The store writes no job row -/

/-- Two states of the store with the same jobs table and next job id. -/
def SameJobs (db db' : Db) : Prop := db'.jobs = db.jobs ∧ db'.nextJobId = db.nextJobId

theorem SameJobs.trans {db₁ db₂ db₃ : Db} (h₁ : SameJobs db₁ db₂) (h₂ : SameJobs db₂ db₃) :
    SameJobs db₁ db₃ :=
  ⟨h₂.1.trans h₁.1, h₂.2.trans h₁.2⟩

theorem sameJobs_chunkStep (env : Env) (storageDir : String) (comp : CompressionType)
    (encrypt : Bool) (key : Bytes32) (l : Loop) (chunk : Bytes) :
    SameJobs l.sys.db (chunkStep env storageDir comp encrypt key l chunk).sys.db := by
  dsimp only [chunkStep]
  split
  · exact ⟨rfl, rfl⟩
  · split
    · exact ⟨rfl, rfl⟩
    · split
      · exact ⟨rfl, rfl⟩
      · simp [SameJobs]

theorem sameJobs_foldl_chunkStep (env : Env) (storageDir : String) (comp : CompressionType)
    (encrypt : Bool) (key : Bytes32) (ws : List Bytes) (l : Loop) :
    SameJobs l.sys.db (ws.foldl (chunkStep env storageDir comp encrypt key) l).sys.db :=
  foldl_rel (fun x y : Loop => SameJobs x.sys.db y.sys.db) (fun _ => ⟨rfl, rfl⟩)
    (fun h h' => h.trans h') _ (sameJobs_chunkStep env storageDir comp encrypt key) ws l

theorem sameJobs_storeFile (env : Env) (storageDir : String) (s : Sys) (filePath : String)
    (comp : CompressionType) (encrypt : Bool) (key : Bytes32) (jobId : Int) (rel : String) :
    SameJobs s.db (storeFile env storageDir s filePath comp encrypt key jobId rel).2.db := by
  dsimp only [storeFile]
  split
  · exact ⟨rfl, rfl⟩
  · split
    · exact ⟨rfl, rfl⟩
    · rename_i data _
      refine (sameJobs_foldl_chunkStep env storageDir comp encrypt key (windows data)
        ⟨[], 0, 0, s⟩).trans ?_
      simp [SameJobs]

end ChunkStore

end FileBackup
