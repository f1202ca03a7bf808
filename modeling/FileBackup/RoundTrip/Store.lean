import FileBackup.Rebackup
import FileBackup.Fs.Frame
import FileBackup.RoundTrip.Chunk

/-!
# What a backup leaves for a restore

A run of `BackupWorker::execute` without a failed call leaves everything that
`RestoreEngine::restore_job` reads:

* `getFileManifests_storeFileManifest`: the manifests table gives back what `store_file_manifest`
  stored, chunks in order, when the chunk indices ascend and the ids are below the next one
  (`Db.ManifestIdsBelow`, which every write keeps);
* `layout_storeFile`: `store_file` records the windows of the file in order: hash, offset, size
  and index;
* `ChunkStore.Sound`: every chunk row of the job's windows lies at its `get_chunk_path`, in a file
  that is the only link to its inode and decodes back to the window under the job's settings.
  Every step of the run keeps it (`Sound.chunkStep`, `Sound.storeFile`, `Sound.execute`), given a
  lawful codec and a digest without collisions among the source's windows;
* `execute_recorded`: the job's manifests are those of the files of its source, in order.
-/

namespace FileBackup

/-! ### The manifests table -/

/-- A recorded chunk's hash, offset, size and index. -/
def ChunkInfo.place (ci : ChunkInfo) : String × Nat × Nat × Nat :=
  (ci.hash, ci.offset, ci.size, ci.chunkIndex)

namespace Db

/-- Every manifest row and every `file_chunks` row carries an id already handed out
(`AUTOINCREMENT`). -/
structure ManifestIdsBelow (db : Db) : Prop where
  manifests : ∀ r ∈ db.manifests, r.manifestId < db.nextManifestId
  fileChunks : ∀ fc ∈ db.fileChunks, fc.manifestId < db.nextManifestId

theorem manifestIdsBelow_empty : empty.ManifestIdsBelow := ⟨nofun, nofun⟩

/-- Two states with the same manifests tables. -/
def SameManifests (db db' : Db) : Prop :=
  db'.manifests = db.manifests ∧ db'.fileChunks = db.fileChunks ∧
    db'.nextManifestId = db.nextManifestId

theorem SameManifests.trans {db₁ db₂ db₃ : Db} (h₁ : SameManifests db₁ db₂)
    (h₂ : SameManifests db₂ db₃) : SameManifests db₁ db₃ :=
  ⟨h₂.1.trans h₁.1, h₂.2.1.trans h₁.2.1, h₂.2.2.trans h₁.2.2⟩

theorem SameManifests.idsBelow {db db' : Db} (h : SameManifests db db') (hi : db.ManifestIdsBelow) :
    db'.ManifestIdsBelow :=
  ⟨by rw [h.1, h.2.2]; exact hi.manifests, by rw [h.2.1, h.2.2]; exact hi.fileChunks⟩

theorem SameManifests.getFileManifests_eq {db db' : Db} (h : SameManifests db db') (j : Int) :
    db'.getFileManifests j = db.getFileManifests j := by
  unfold Db.getFileManifests Db.chunksOf
  rw [h.1, h.2.1]

theorem sameManifests_storeChunk (db : Db) (h p : String) (o s : Nat) (c : CompressionType)
    (e ok : Bool) : SameManifests db (db.storeChunk h p o s c e ok).2 := by
  unfold storeChunk; split <;> exact ⟨rfl, rfl, rfl⟩

theorem chunks_storeChunk_of_ne (db : Db) {h h' : String} (hne : h' ≠ h) (p : String) (o s : Nat)
    (c : CompressionType) (e ok : Bool) : (db.storeChunk h p o s c e ok).2.chunks h' = db.chunks h' := by
  unfold storeChunk; split
  · exact Function.update_noteq hne _ _
  · rfl

theorem sameManifests_updateJobStatus (db : Db) (id : Int) (s : JobStatus) (e : String)
    (ok : Bool) : SameManifests db (db.updateJobStatus id s e ok).2 := by
  unfold updateJobStatus; split <;> exact ⟨rfl, rfl, rfl⟩

theorem sameManifests_updateJobStats (db : Db) (id : Int) (t p st d f : Nat) (ok : Bool) :
    SameManifests db (db.updateJobStats id t p st d f ok).2 := by
  unfold updateJobStats; split <;> exact ⟨rfl, rfl, rfl⟩

theorem sameManifests_storeEncryptionKey (db : Db) (id : Int) (k : String) (ok : Bool) :
    SameManifests db (db.storeEncryptionKey id k ok).2 := by
  unfold storeEncryptionKey; split <;> exact ⟨rfl, rfl, rfl⟩

/-- A stored manifest's chunks, as `file_chunks` rows. -/
def chunkRows (id : Nat) (m : FileManifest) : List FileChunkRow :=
  m.chunks.map fun c => ⟨id, c.hash, c.chunkIndex, c.offset, c.size, c.deduplicated⟩

/-- `store_file_manifest`, when it succeeds: the header row and the chunk rows under the next
id. -/
theorem storeFileManifest_of_ok {db : Db} {jobId : Int} {m : FileManifest} {ok : Bool}
    (hok : (db.storeFileManifest jobId m ok).1 = true) :
    (db.storeFileManifest jobId m ok).2 = { db with
      manifests := db.manifests ++ [⟨db.nextManifestId, jobId, m.filePath, m.fileName, m.fileSize,
        m.modifiedTime, m.fileHash⟩]
      fileChunks := db.fileChunks ++ chunkRows db.nextManifestId m
      nextManifestId := db.nextManifestId + 1 } := by
  unfold storeFileManifest at hok ⊢
  split
  · rfl
  · rw [if_neg ‹_›] at hok; cases hok

/-- `store_file_manifest`, when it fails: nothing changes. -/
theorem storeFileManifest_of_fail {db : Db} {jobId : Int} {m : FileManifest} {ok : Bool}
    (hok : (db.storeFileManifest jobId m ok).1 = false) : (db.storeFileManifest jobId m ok).2 = db := by
  unfold storeFileManifest at hok ⊢
  split
  · rw [if_pos ‹_›] at hok; cases hok
  · rfl

theorem ManifestIdsBelow.storeFileManifest {db : Db} (h : db.ManifestIdsBelow) (jobId : Int)
    (m : FileManifest) (ok : Bool) : (db.storeFileManifest jobId m ok).2.ManifestIdsBelow := by
  cases hok : (db.storeFileManifest jobId m ok).1
  · rw [storeFileManifest_of_fail hok]; exact h
  · rw [storeFileManifest_of_ok hok]
    refine ⟨fun r hr => ?_, fun fc hfc => ?_⟩
    · rcases List.mem_append.1 hr with hr | hr
      · exact Nat.lt_succ_of_lt (h.manifests r hr)
      · simp only [List.mem_singleton] at hr; subst hr; exact Nat.lt_succ_self _
    · rcases List.mem_append.1 hfc with hfc | hfc
      · exact Nat.lt_succ_of_lt (h.fileChunks fc hfc)
      · obtain ⟨c, -, rfl⟩ := List.mem_map.1 hfc; exact Nat.lt_succ_self _

/-- The chunk rows of a manifest id that a store adds no row under are as they were. -/
theorem chunksOf_append_of_ne {db db' : Db} {rows : List FileChunkRow} {k : Nat}
    (he : db'.fileChunks = db.fileChunks ++ rows) (h : ∀ r ∈ rows, r.manifestId ≠ k) :
    db'.chunksOf k = db.chunksOf k := by
  have h₀ : rows.filter (fun r => decide (r.manifestId = k)) = [] :=
    List.filter_eq_nil_iff.2 fun r hr => by simp [h r hr]
  simp only [chunksOf, he, List.filter_append, h₀, List.append_nil]

/-- The chunks of a manifest stored under a fresh id read back in order when their indices
ascend. -/
theorem chunksOf_append_fresh {db db' : Db} {m : FileManifest} {k : Nat}
    (he : db'.fileChunks = db.fileChunks ++ chunkRows k m) (h : ∀ fc ∈ db.fileChunks, fc.manifestId ≠ k)
    (hs : m.chunks.Pairwise fun a b => a.chunkIndex ≤ b.chunkIndex) : db'.chunksOf k = m.chunks := by
  have h₁ : db.fileChunks.filter (fun fc => decide (fc.manifestId = k)) = [] :=
    List.filter_eq_nil_iff.2 fun r hr => by simp [h r hr]
  have h₂ : (chunkRows k m).filter (fun fc => decide (fc.manifestId = k)) = chunkRows k m :=
    List.filter_eq_self.2 fun r hr => by obtain ⟨c, -, rfl⟩ := List.mem_map.1 hr; simp
  have hsorted : (chunkRows k m).Sorted fun a b : FileChunkRow => a.chunkIndex ≤ b.chunkIndex := by
    simpa [chunkRows, List.Sorted, List.pairwise_map] using hs
  simp only [chunksOf, he, List.filter_append, h₁, h₂, List.nil_append, hsorted.insertionSort_eq]
  simp only [chunkRows, List.map_map]
  conv_rhs => rw [← List.map_id m.chunks]
  exact List.map_congr_left fun _ _ => rfl

/-- Storing a manifest and reading the job's manifests back gives the earlier ones, then this
one, field for field and with its chunks in order, when the chunk indices ascend and every id is
below the next one. -/
theorem getFileManifests_storeFileManifest {db : Db} {jobId : Int} {m : FileManifest} {ok : Bool}
    (hids : db.ManifestIdsBelow) (hs : m.chunks.Pairwise fun a b => a.chunkIndex ≤ b.chunkIndex)
    (hok : (db.storeFileManifest jobId m ok).1 = true) (j : Int) :
    (db.storeFileManifest jobId m ok).2.getFileManifests j =
      db.getFileManifests j ++ if jobId = j then [m] else [] := by
  rw [storeFileManifest_of_ok hok]
  generalize hd' : ({ db with
    manifests := db.manifests ++ [⟨db.nextManifestId, jobId, m.filePath, m.fileName, m.fileSize,
      m.modifiedTime, m.fileHash⟩]
    fileChunks := db.fileChunks ++ chunkRows db.nextManifestId m
    nextManifestId := db.nextManifestId + 1 } : Db) = db'
  have he : db'.fileChunks = db.fileChunks ++ chunkRows db.nextManifestId m := by rw [← hd']
  have hold : ∀ r ∈ db.manifests, db'.chunksOf r.manifestId = db.chunksOf r.manifestId :=
    fun r hr => chunksOf_append_of_ne he fun fc hfc => by
      obtain ⟨c, -, rfl⟩ := List.mem_map.1 hfc
      exact (hids.manifests r hr).ne'
  have hnew := chunksOf_append_fresh he (fun fc hfc => (hids.fileChunks fc hfc).ne) hs
  have hm : db'.manifests = db.manifests ++ [⟨db.nextManifestId, jobId, m.filePath, m.fileName,
      m.fileSize, m.modifiedTime, m.fileHash⟩] := by rw [← hd']
  unfold getFileManifests
  rw [hm]
  rw [List.filter_append, List.map_append]
  congr 1
  · exact List.map_congr_left fun r hr => by rw [hold r (List.mem_of_mem_filter hr)]
  · by_cases hj : jobId = j <;> simp [hj, hnew]

end Db

namespace ChunkStore

/-! ### The chunks `store_file` records -/

/-- The chunks a loop without a failed call records for the windows `ws`, from offset `offset` and
index `idx`: each window's hash and size, at consecutive offsets and indices. -/
def layout (c : Codec) (offset idx : Nat) : List Bytes → List (String × Nat × Nat × Nat)
  | [] => []
  | w :: ws => (c.hashHex w, offset, w.length, idx) :: layout c (offset + w.length) (idx + 1) ws

/-- A step without a failed call records its window. -/
theorem chunkStep_push_of_clean {env : Env} {storageDir : String} {comp : CompressionType}
    {encrypt : Bool} {key : Bytes32} {l : Loop} {w : Bytes}
    (h : (chunkStep env storageDir comp encrypt key l w).sys.failed = l.sys.failed) :
    ∃ s d, chunkStep env storageDir comp encrypt key l w = l.push (env.codec.hashHex w) w s d := by
  rcases chunkStep_of_clean h with ⟨-, e⟩ | ⟨-, p, fs, -, -, -, e⟩ <;> exact ⟨_, _, e⟩

theorem layout_foldl_chunkStep (env : Env) (storageDir : String) (comp : CompressionType)
    (encrypt : Bool) (key : Bytes32) : ∀ (ws : List Bytes) (l : Loop),
    (ws.foldl (chunkStep env storageDir comp encrypt key) l).sys.failed = l.sys.failed →
    (ws.foldl (chunkStep env storageDir comp encrypt key) l).chunks.map ChunkInfo.place =
      l.chunks.map ChunkInfo.place ++ layout env.codec l.offset l.idx ws
  | [], l, _ => by simp [layout]
  | w :: ws, l, h => by
    have h₁ := prefix_squeeze (prefix_failed_chunkStep env storageDir comp encrypt key l w)
      (prefix_failed_foldl_chunkStep env storageDir comp encrypt key ws _) h
    obtain ⟨s, d, e⟩ := chunkStep_push_of_clean h₁
    rw [List.foldl_cons, layout_foldl_chunkStep env storageDir comp encrypt key ws _
      (h.trans h₁.symm), e]
    simp [Loop.push, layout, ChunkInfo.place]

/-- Recorded chunks in the layout of some windows have their hashes and sizes, in order. -/
theorem forall₂_of_layout {c : Codec} : ∀ {cs : List ChunkInfo} {offset idx : Nat} {ws : List Bytes},
    cs.map ChunkInfo.place = layout c offset idx ws →
    List.Forall₂ (fun ci w => ci.hash = c.hashHex w ∧ ci.size = w.length) cs ws
  | [], _, _, [], _ => .nil
  | [], _, _, _ :: _, h => by simp [layout] at h
  | _ :: _, _, _, [], h => by simp [layout] at h
  | _ :: _, _, _, _ :: _, h => by
    simp only [List.map_cons, layout, List.cons.injEq, ChunkInfo.place, Prod.mk.injEq] at h
    exact .cons ⟨h.1.1, h.1.2.2.1⟩ (forall₂_of_layout h.2)

theorem le_index_of_mem_layout {c : Codec} : ∀ {offset idx : Nat} {ws : List Bytes}
    {p : String × Nat × Nat × Nat}, p ∈ layout c offset idx ws → idx ≤ p.2.2.2
  | _, _, [], _, h => by simp [layout] at h
  | _, _, _ :: _, _, h => by
    rcases List.mem_cons.1 h with rfl | h
    · exact le_rfl
    · exact Nat.le_of_succ_le (le_index_of_mem_layout h)

/-- Recorded chunks in a layout have ascending indices. -/
theorem pairwise_of_layout {c : Codec} : ∀ {cs : List ChunkInfo} {offset idx : Nat}
    {ws : List Bytes}, cs.map ChunkInfo.place = layout c offset idx ws →
    cs.Pairwise fun a b => a.chunkIndex < b.chunkIndex
  | [], _, _, _, _ => .nil
  | _ :: _, _, _, [], h => by simp [layout] at h
  | ci :: cs, _, _, _ :: _, h => by
    simp only [List.map_cons, layout, List.cons.injEq, ChunkInfo.place, Prod.mk.injEq] at h
    refine List.Pairwise.cons (fun b hb => ?_) (pairwise_of_layout h.2)
    have := le_index_of_mem_layout (h.2 ▸ List.mem_map_of_mem ChunkInfo.place hb)
    simp only [ChunkInfo.place] at this
    omega

/-- A `store_file` of a regular file without a failed call records its windows in order: the
`k`-th chunk has the `k`-th window's hash and size, index `k`, and the sum of the sizes before it
as offset. -/
theorem layout_storeFile {env : Env} {storageDir : String} {s : Sys} {filePath : String}
    {comp : CompressionType} {encrypt : Bool} {key : Bytes32} {jobId : Int} {rel : String} {i : Nat}
    (hf : s.fs.lookup (splitPath filePath) = some (.file i))
    (hc : (storeFile env storageDir s filePath comp encrypt key jobId rel).2.failed = s.failed) :
    (storeFile env storageDir s filePath comp encrypt key jobId rel).1.chunks.map ChunkInfo.place =
      layout env.codec 0 0 (windows (s.fs.inodes i)) := by
  rw [storeFile_of_file env storageDir comp encrypt key jobId rel hf] at hc ⊢
  dsimp only at hc ⊢
  exact layout_foldl_chunkStep env storageDir comp encrypt key _ _
    (prefix_squeeze (prefix_failed_foldl_chunkStep ..) (Sys.prefix_failed_write ..) hc)

theorem sameManifests_chunkStep (env : Env) (storageDir : String) (comp : CompressionType)
    (encrypt : Bool) (key : Bytes32) (l : Loop) (w : Bytes) :
    Db.SameManifests l.sys.db (chunkStep env storageDir comp encrypt key l w).sys.db := by
  dsimp only [chunkStep]
  split
  · exact ⟨rfl, rfl, rfl⟩
  · split
    · exact ⟨rfl, rfl, rfl⟩
    · split
      · exact ⟨rfl, rfl, rfl⟩
      · exact Db.sameManifests_storeChunk ..

/-- A `store_file` of a regular file without a failed call adds its manifest to the table, where
it reads back as `store_file` returned it. -/
theorem getFileManifests_storeFile {env : Env} {storageDir : String} {s : Sys} {filePath : String}
    {comp : CompressionType} {encrypt : Bool} {key : Bytes32} {jobId : Int} {rel : String} {i : Nat}
    (hf : s.fs.lookup (splitPath filePath) = some (.file i)) (hids : s.db.ManifestIdsBelow)
    (hc : (storeFile env storageDir s filePath comp encrypt key jobId rel).2.failed = s.failed) :
    let r := storeFile env storageDir s filePath comp encrypt key jobId rel
    r.2.db.ManifestIdsBelow ∧ ∀ j, r.2.db.getFileManifests j =
      s.db.getFileManifests j ++ if jobId = j then [r.1] else [] := by
  have hl := @layout_storeFile env storageDir s filePath comp encrypt key jobId rel i hf hc
  rw [storeFile_of_file env storageDir comp encrypt key jobId rel hf] at hc hl ⊢
  have hsame := foldl_rel (fun x y : Loop => Db.SameManifests x.sys.db y.sys.db)
    (fun _ => ⟨rfl, rfl, rfl⟩) (fun h h' => h.trans h') _
    (sameManifests_chunkStep env storageDir comp encrypt key) (windows (s.fs.inodes i)) ⟨[], 0, 0, s⟩
  dsimp only at hc hl ⊢
  have hok := Sys.ok_of_failed_write (hc.trans (prefix_squeeze
    (prefix_failed_foldl_chunkStep ..) (Sys.prefix_failed_write ..) hc).symm)
  simp only [Sys.write_db]
  refine ⟨(hsame.idsBelow hids).storeFileManifest .., fun j => ?_⟩
  rw [Db.getFileManifests_storeFileManifest (hsame.idsBelow hids)
    ((pairwise_of_layout hl).imp Nat.le_of_lt) hok, hsame.getFileManifests_eq]

/-! ### A store a restore can read -/

section Sound

variable (c : Codec) (storageDir : String) (comp : CompressionType) (encrypt : Bool)
  (key : Bytes32) (W : List Bytes)

/-- The chunk store as a restore with these settings needs it: the files below the store's
directory are the only links to their inodes, and every window of `W` that has a row lies at its
`get_chunk_path`, in a file that decodes back to the window. -/
structure Sound (db : Db) (fs : Fs) : Prop where
  owned : fs.Owned (splitPath storageDir)
  decodes : ∀ w ∈ W, db.chunkExists (c.hashHex w) = true →
    db.getChunkPath (c.hashHex w) = getChunkPath storageDir (c.hashHex w) ∧
    ∃ raw, fs.readFile (splitPath (getChunkPath storageDir (c.hashHex w))) = some raw ∧
      decodeRaw c comp encrypt key w.length raw = some w

variable {c storageDir comp encrypt key W} {db db' : Db} {fs fs' : Fs}

/-- A store with no chunk row whose directory holds only single links is sound. -/
theorem sound_of_no_chunks (h : ∀ hash, db.chunks hash = none) (ho : fs.Owned (splitPath storageDir)) :
    Sound c storageDir comp encrypt key W db fs :=
  ⟨ho, fun w _ hw => by simp [Db.chunkExists, h] at hw⟩

/-- In a sound store, the chunk of a window with a row decodes to the window, through any cache
of the store. -/
theorem Sound.decodeChunk (h : Sound c storageDir comp encrypt key W db fs)
    {index : ChunkStore.ChunkIndex} (hidx : index.InStore storageDir) {w : Bytes}
    (hw : w ∈ W) (hx : db.chunkExists (c.hashHex w) = true) {ci : ChunkInfo}
    (hh : ci.hash = c.hashHex w) (hs : ci.size = w.length) :
    ChunkStore.decodeChunk c index db fs comp encrypt key ci = some w := by
  obtain ⟨hp, raw, hr, hd⟩ := h.decodes w hw hx
  simp only [ChunkStore.decodeChunk, hh, hs, hidx.path hp, hr, hd, getChunkPath_ne_empty, ne_eq,
    not_true_eq_false, or_self, ↓reduceIte]

theorem Sound.of_chunks (h : Sound c storageDir comp encrypt key W db fs)
    (he : db'.chunks = db.chunks) : Sound c storageDir comp encrypt key W db' fs :=
  ⟨h.owned, fun w hw hx => by
    simp only [Db.chunkExists, Db.getChunkPath, he] at hx ⊢
    exact h.decodes w hw hx⟩

theorem Sound.of_writesOutside (h : Sound c storageDir comp encrypt key W db fs)
    (hw : Fs.WritesOutside (splitPath storageDir) fs fs') :
    Sound c storageDir comp encrypt key W db fs' :=
  ⟨(hw h.owned).1, fun w hw' hx =>
    let ⟨hp, raw, hr, hd⟩ := h.decodes w hw' hx
    ⟨hp, raw, (hw h.owned).2.readFile (prefix_getChunkPath _ _) hr, hd⟩⟩

theorem Sound.mono (h : Sound c storageDir comp encrypt key W db fs) {W' : List Bytes}
    (hW : ∀ w ∈ W', w ∈ W) : Sound c storageDir comp encrypt key W' db fs :=
  ⟨h.owned, fun w hw => h.decodes w (hW w hw)⟩

/-- A chunk write at a hash `x` keeps each window of `W` with another hash, whose row stays as it
was, at its row's path in a file that decodes back to it. -/
theorem Sound.decodes_of_write (h : Sound c storageDir comp encrypt key W db fs) {c' : Codec}
    {x : Bytes} {data : Bytes}
    (hwr : (fs.mkdirPath (dirnameOf (getChunkPath storageDir (c'.hashHex x)))).writeFile
      (splitPath (getChunkPath storageDir (c'.hashHex x))) data = some fs')
    {w : Bytes} (hw : w ∈ W) (hwx : c.hashHex w ≠ c'.hashHex x)
    (hc : db'.chunks (c.hashHex w) = db.chunks (c.hashHex w))
    (hex : db'.chunkExists (c.hashHex w) = true) :
    db'.getChunkPath (c.hashHex w) = getChunkPath storageDir (c.hashHex w) ∧
      ∃ raw, fs'.readFile (splitPath (getChunkPath storageDir (c.hashHex w))) = some raw ∧
        decodeRaw c comp encrypt key w.length raw = some w := by
  rw [Db.chunkExists, hc] at hex
  obtain ⟨hp, raw, hr, hd⟩ := h.decodes w hw hex
  have ho := Fs.writesOutside_mkdirP (splitPath storageDir) fs []
    (splitPath (dirnameOf (getChunkPath storageDir (c'.hashHex x)))) h.owned
  refine ⟨by rw [Db.getChunkPath, hc]; exact hp, raw, ?_, hd⟩
  exact ho.1.readFile_writeFile_of_ne hwr (prefix_getChunkPath _ _)
    (fun e => hwx (hashHex_eq_of_getChunkPath e)) (ho.2.readFile (prefix_getChunkPath _ _) hr)

end Sound

section Run

variable {env : Env} {storageDir : String} {comp : CompressionType} {encrypt : Bool}
  {key : Bytes32} {W : List Bytes}

/-- A step of `store_file`'s loop without a failed call keeps the store sound, for a lawful codec
whose digest has no collision among the windows `W`: a window it stores is written where its row
points and decodes back, and every other chunk file is left as it was. -/
theorem Sound.chunkStep (hc : env.codec.Lawful) (hinj : Set.InjOn env.codec.hashHex {w | w ∈ W})
    {l : Loop} {x : Bytes} (hx : x ∈ W) (hx' : x ≠ [])
    (h : Sound env.codec storageDir comp encrypt key W l.sys.db l.sys.fs)
    (hcl : (chunkStep env storageDir comp encrypt key l x).sys.failed = l.sys.failed) :
    Sound env.codec storageDir comp encrypt key W
      (chunkStep env storageDir comp encrypt key l x).sys.db
      (chunkStep env storageDir comp encrypt key l x).sys.fs := by
  rcases chunkStep_of_clean hcl with ⟨-, e⟩ | ⟨hne, p, fs, henc, hwr, -, e⟩ <;> rw [e]
  · exact h
  simp only [Loop.push_sys]
  have ho₁ := Fs.writesOutside_mkdirP (splitPath storageDir) l.sys.fs []
    (splitPath (dirnameOf (getChunkPath storageDir (env.codec.hashHex x)))) h.owned
  have hnone : l.sys.db.chunks (env.codec.hashHex x) = none := by
    simpa [Db.chunkExists] using hne
  refine ⟨ho₁.1.writeFile hwr, fun w hw hex => ?_⟩
  by_cases hwx : env.codec.hashHex w = env.codec.hashHex x
  · -- the window just stored: its row points at the file written, which decodes back
    obtain rfl := hinj hw hx hwx
    exact ⟨by simp [Db.getChunkPath, Db.storeChunk, hnone], p, Fs.readFile_writeFile hwr,
      decodeRaw_encodeChunk hc hx' henc⟩
  · -- another window: its row and its file are as they were
    exact h.decodes_of_write hwr hw hwx (Db.chunks_storeChunk_of_ne _ hwx ..) hex

theorem Sound.foldl_chunkStep (hc : env.codec.Lawful) (hinj : Set.InjOn env.codec.hashHex {w | w ∈ W}) :
    ∀ (ws : List Bytes) (l : Loop), (∀ x ∈ ws, x ∈ W ∧ x ≠ []) →
    Sound env.codec storageDir comp encrypt key W l.sys.db l.sys.fs →
    (ws.foldl (ChunkStore.chunkStep env storageDir comp encrypt key) l).sys.failed = l.sys.failed →
    Sound env.codec storageDir comp encrypt key W
      (ws.foldl (ChunkStore.chunkStep env storageDir comp encrypt key) l).sys.db
      (ws.foldl (ChunkStore.chunkStep env storageDir comp encrypt key) l).sys.fs
  | [], _, _, h, _ => h
  | x :: ws, l, hws, h, hcl => by
    have h₁ := prefix_squeeze (prefix_failed_chunkStep env storageDir comp encrypt key l x)
      (prefix_failed_foldl_chunkStep env storageDir comp encrypt key ws _) hcl
    exact Sound.foldl_chunkStep hc hinj ws _ (fun y hy => hws y (List.mem_cons_of_mem x hy))
      (h.chunkStep hc hinj (hws x (List.mem_cons_self x ws)).1 (hws x (List.mem_cons_self x ws)).2 h₁)
      (hcl.trans h₁.symm)

/-- A `store_file` of a regular file without a failed call keeps the store sound when the file's
windows are among `W`. -/
theorem Sound.storeFile (hc : env.codec.Lawful) (hinj : Set.InjOn env.codec.hashHex {w | w ∈ W})
    {s : Sys} {filePath : String} {jobId : Int} {rel : String} {i : Nat}
    (hf : s.fs.lookup (splitPath filePath) = some (.file i))
    (hW : ∀ w ∈ windows (s.fs.inodes i), w ∈ W)
    (h : Sound env.codec storageDir comp encrypt key W s.db s.fs)
    (hcl : (ChunkStore.storeFile env storageDir s filePath comp encrypt key jobId rel).2.failed =
      s.failed) :
    Sound env.codec storageDir comp encrypt key W
      (ChunkStore.storeFile env storageDir s filePath comp encrypt key jobId rel).2.db
      (ChunkStore.storeFile env storageDir s filePath comp encrypt key jobId rel).2.fs := by
  rw [storeFile_of_file env storageDir comp encrypt key jobId rel hf] at hcl ⊢
  dsimp only at hcl ⊢
  have hl := Sound.foldl_chunkStep hc hinj _ ⟨[], 0, 0, s⟩
    (fun x hx => ⟨hW x hx, (mem_readChunks hx).1⟩) h
    (prefix_squeeze (prefix_failed_foldl_chunkStep ..) (Sys.prefix_failed_write ..) hcl)
  exact hl.of_chunks (by simp)

end Run

end ChunkStore

/-! ### The paths a run records -/

theorem getLast?_toDigitsCore (b : Nat) : ∀ (fuel n : Nat) {ds : List Char}, ds ≠ [] →
    (Nat.toDigitsCore b fuel n ds).getLast? = ds.getLast?
  | 0, _, _, _ => rfl
  | fuel + 1, n, ds, h => by
    obtain ⟨x, xs, rfl⟩ := List.exists_cons_of_ne_nil h
    show (if n / b = 0 then Nat.digitChar (n % b) :: x :: xs
      else Nat.toDigitsCore b fuel (n / b) (Nat.digitChar (n % b) :: x :: xs)).getLast? = _
    split
    · exact List.getLast?_cons_cons
    · rw [getLast?_toDigitsCore b fuel _ (List.cons_ne_nil _ _), List.getLast?_cons_cons]

/-- `toString` of a number ends with its last decimal digit. -/
theorem getLast?_toString_nat (n : Nat) :
    (toString n).data.getLast? = some (Nat.digitChar (n % 10)) := by
  show (if n / 10 = 0 then [Nat.digitChar (n % 10)]
    else Nat.toDigitsCore 10 n (n / 10) [Nat.digitChar (n % 10)]).getLast? = _
  split
  · rfl
  · rw [getLast?_toDigitsCore 10 n _ (List.cons_ne_nil _ [])]; rfl

/-- A snapshot directory ends with a digit, so `snap_base` adds a slash to it. -/
theorem snapBase_snapshotDir (baseDir : String) (jobId : Int) (now : Nat) :
    Worker.snapBase (snapshotDir baseDir jobId now) = snapshotDir baseDir jobId now ++ "/" := by
  have hl : (snapshotDir baseDir jobId now).data.getLast? = some (Nat.digitChar (now % 10)) := by
    simp only [snapshotDir, String.data_append, List.getLast?_append, getLast?_toString_nat,
      Option.or_some]
  have hd : Nat.digitChar (now % 10) ≠ '/' :=
    (by decide : ∀ k < 10, Nat.digitChar k ≠ '/') _ (Nat.mod_lt _ (by decide))
  simp [Worker.snapBase, snapshotDir_ne_empty, hl, hd]

/-- What follows `p/` in `p/r` is `r`. -/
theorem relPath_append_slash (p r : String) : Worker.relPath (p ++ "/") (p ++ "/" ++ r) = r := by
  have h : (p ++ "/" ++ r).data = (p ++ "/").data ++ r.data := by simp
  have hlen : (p ++ "/").length = (p ++ "/").data.length := rfl
  simp only [Worker.relPath, h, hlen, List.take_left', List.drop_left', ↓reduceIte]

theorem joinRel_ne_empty {p : Path} (hp : p ≠ []) (hv : ∀ n ∈ p, ValidName n) : joinRel p ≠ "" :=
  fun h => hp (by rw [← splitPath_joinRel hv, h]; rfl)

/-! ### A run keeps the store sound -/

/-- A consistent snapshot placed and taken apart from `s` keeps the files below `s` single links
with their bytes: its new files link the source's inodes, which lie outside `s`. -/
theorem Fs.writesOutside_createSnapshot {s : Path} {fs fs' : Fs} {baseDir sourcePath : String}
    {jobId : Int} {now : Nat} {info : SnapshotInfo} {es : List (String × Node)}
    (hsrc : fs.lookup (splitPath sourcePath) = some (.dir es)) (hwf : Node.WfOf es)
    (hsep : ¬ splitPath sourcePath <+: splitPath (snapshotDir baseDir jobId now))
    (hs₁ : ¬ s <+: splitPath sourcePath) (hs₂ : ¬ splitPath sourcePath <+: s)
    (hs₃ : ¬ s <+: splitPath (snapshotDir baseDir jobId now))
    (hs₄ : ¬ splitPath (snapshotDir baseDir jobId now) <+: s)
    (h : createSnapshot fs baseDir jobId sourcePath now = (info, fs'))
    (hc : info.isConsistent = true) : Fs.WritesOutside s fs fs' := fun ho => by
  have hfile := fun {p} {i} hp => createSnapshot_file hsrc hwf hsep h hc (p := p) (i := i) hp
  obtain ⟨-, q, name, r, hq, hr, rfl⟩ := createSnapshot_dir_put hsrc hsep h hc
  refine ⟨⟨fun p i hp => ?_, fun p p' i hs hp hp' => ?_⟩, fun p i hs hp => ⟨?_, by simp [Fs.mkdirPath]⟩⟩
  · simp only [Fs.mkdirPath, Fs.nextIno_mkdirP]
    rcases hfile hp with hp | ⟨t, -, hp⟩
    · exact ho.below p i hp
    · exact ho.below _ i hp
  · rcases hfile hp with hp | ⟨t, rfl, -⟩
    · rcases hfile hp' with hp' | ⟨t, rfl, hq'⟩
      · exact ho.single p p' i hs hp hp'
      · exact absurd (ho.single p _ i hs hp hq' ▸ hs) (not_prefix_append_of_apart hs₁ hs₂ t)
    · exact absurd hs (not_prefix_append_of_apart hs₃ hs₄ t)
  · have hq₁ : q ++ [name] <+: splitPath (snapshotDir baseDir jobId now) := hq ▸ List.prefix_refl _
    refine (Node.get_put_of_apart hr (fun hpq => hs₃ ?_) (fun hqp => ?_)).trans
      ((Fs.lookup_mkdirP_file fs [] _).2 hp)
    · exact hs.trans (hpq.trans ((List.prefix_append q [name]).trans hq₁))
    · exact (List.prefix_or_prefix_of_prefix (hq ▸ hqp : splitPath (snapshotDir baseDir jobId now) <+: p)
        hs).elim hs₄ hs₃

theorem Fs.writesOutside_removeSnapshot {s : Path} (fs : Fs) {info : SnapshotInfo}
    (h₁ : ¬ splitPath info.snapshotPath <+: s) (h₂ : ¬ s <+: splitPath info.snapshotPath) :
    Fs.WritesOutside s fs (removeSnapshot fs info) := by
  unfold removeSnapshot
  split
  · exact .refl _ _
  · exact Fs.writesOutside_removeRecursive h₁ h₂

/-- The manifest a run without a failed call records for the file at path `p` below the source,
holding the bytes `b`. -/
structure Recorded (c : Codec) (m : FileManifest) (p : Path) (b : Bytes) : Prop where
  path : m.filePath = joinRel p
  size : m.fileSize = b.length
  hash : m.fileHash = toHex (c.sha256 b)
  chunks : m.chunks.map ChunkInfo.place = ChunkStore.layout c 0 0 (windows b)

namespace Worker

open ChunkStore

variable {env : Env} {dataDir : String} {job : BackupJob} {key : Bytes32} {W : List Bytes}

/-- One file of the loop, without a failed call: the store stays sound, and the file's manifest
is recorded after the job's others. -/
theorem fileStep_recorded (hc : env.codec.Lawful) (hinj : Set.InjOn env.codec.hashHex {w | w ∈ W})
    {base : String} {t : Tally} {f : String} {p : Path} {i : Nat}
    (hf : t.sys.fs.lookup (splitPath f) = some (.file i)) (hrel : relPath base f = joinRel p)
    (hp : joinRel p ≠ "") (hW : ∀ w ∈ windows (t.sys.fs.inodes i), w ∈ W)
    (h : Sound env.codec (storageDir dataDir) job.compression job.encrypt key W t.sys.db t.sys.fs)
    (hids : t.sys.db.ManifestIdsBelow)
    (hcl : (fileStep env dataDir job key base t f).sys.failed = t.sys.failed) :
    let t' := fileStep env dataDir job key base t f
    Sound env.codec (storageDir dataDir) job.compression job.encrypt key W t'.sys.db t'.sys.fs ∧
      t'.sys.db.ManifestIdsBelow ∧ ∃ m, Recorded env.codec m p (t.sys.fs.inodes i) ∧
        t'.sys.db.getFileManifests job.jobId = t.sys.db.getFileManifests job.jobId ++ [m] := by
  rw [fileStep_of_file env dataDir job key base hf] at hcl ⊢
  dsimp only at hcl ⊢
  have e := storeFile_of_file env (storageDir dataDir) job.compression job.encrypt key job.jobId
    (relPath base f) hf
  obtain ⟨hids', hget⟩ := @getFileManifests_storeFile env (storageDir dataDir) t.sys f
    job.compression job.encrypt key job.jobId (relPath base f) i hf hids hcl
  refine ⟨h.storeFile hc hinj hf hW hcl, hids', _, ⟨?_, ?_, ?_, layout_storeFile hf hcl⟩, ?_⟩
  · rw [e]; simp [hrel, hp]
  · rw [e]
  · rw [e]
  · rw [hget]; simp

/-- The file loop over listed files, without a failed call: the store stays sound, and the
files' manifests are recorded in order after the job's others. -/
theorem foldl_fileStep_recorded (hc : env.codec.Lawful)
    (hinj : Set.InjOn env.codec.hashHex {w | w ∈ W}) {base : String} (f : Path × Nat → String)
    (B : Nat → Bytes) : ∀ (xs : List (Path × Nat)) (t : Tally),
    (∀ x ∈ xs, t.sys.fs.lookup (splitPath (f x)) = some (.file x.2) ∧
      ¬ splitPath (storageDir dataDir) <+: splitPath (f x) ∧ t.sys.fs.inodes x.2 = B x.2 ∧
      relPath base (f x) = joinRel x.1 ∧ joinRel x.1 ≠ "" ∧ ∀ w ∈ windows (B x.2), w ∈ W) →
    Sound env.codec (storageDir dataDir) job.compression job.encrypt key W t.sys.db t.sys.fs →
    t.sys.db.ManifestIdsBelow →
    ((xs.map f).foldl (fileStep env dataDir job key base) t).sys.failed = t.sys.failed →
    let t' := (xs.map f).foldl (fileStep env dataDir job key base) t
    Sound env.codec (storageDir dataDir) job.compression job.encrypt key W t'.sys.db t'.sys.fs ∧
      t'.sys.db.ManifestIdsBelow ∧
      ∃ ms, List.Forall₂ (fun m x => Recorded env.codec m x.1 (B x.2)) ms xs ∧
        t'.sys.db.getFileManifests job.jobId = t.sys.db.getFileManifests job.jobId ++ ms
  | [], _, _, h, hids, _ => ⟨h, hids, [], .nil, by simp⟩
  | x :: xs, t, hxs, h, hids, hcl => by
    have h₁ := prefix_squeeze (prefix_failed_fileStep env dataDir job key base t (f x))
      (foldl_rel (fun x y : Tally => x.sys.failed <+: y.sys.failed) (fun _ => List.prefix_refl _)
        (fun h h' => h.trans h') _ (prefix_failed_fileStep env dataDir job key base) _ _) hcl
    obtain ⟨hfx, -, hBx, hrel, hne, hWx⟩ := hxs x (List.mem_cons_self x xs)
    obtain ⟨hs₁, hids₁, m, hm, hget₁⟩ := fileStep_recorded hc hinj hfx hrel hne (hBx ▸ hWx) h hids h₁
    have hk := (writesWithin_fileStep env dataDir job key base t (f x) h.owned.confined).1
    obtain ⟨hs', hids', ms, hms, hget⟩ := foldl_fileStep_recorded hc hinj f B xs _
      (fun y hy => by
        obtain ⟨hfy, hsy, hBy, hy'⟩ := hxs y (List.mem_cons_of_mem x hy)
        obtain ⟨hfy', hiy⟩ := hk _ _ hsy hfy
        exact ⟨hfy', hsy, hiy.trans hBy, hy'⟩)
      hs₁ hids₁ (hcl.trans h₁.symm)
    refine ⟨hs', hids', m :: ms, .cons (hBx ▸ hm) hms, ?_⟩
    simp only [List.map_cons, List.foldl_cons] at hget ⊢
    rw [hget, hget₁, List.append_assoc, List.singleton_append]

@[simp] theorem finishWrites_fs (env : Env) (job : BackupJob) (key : Bytes32) (t : Tally) :
    (finishWrites env job key t).fs = t.sys.fs := by
  unfold finishWrites; split <;> simp

theorem sameManifests_finishWrites (env : Env) (job : BackupJob) (key : Bytes32) (t : Tally) :
    Db.SameManifests t.sys.db (finishWrites env job key t).db := by
  unfold finishWrites
  split <;> simp only [Sys.write_db]
  · exact ((Db.sameManifests_storeEncryptionKey ..).trans (Db.sameManifests_updateJobStats ..)).trans
      (Db.sameManifests_updateJobStatus ..)
  · exact (Db.sameManifests_updateJobStats ..).trans (Db.sameManifests_updateJobStatus ..)

theorem storeFiles_eq (env : Env) (dataDir : String) (job : BackupJob) (key : Bytes32)
    (snap : SnapshotInfo) (s : Sys) : ∃ r, storeFiles env dataDir job key snap s =
      (listFiles s.fs snap).foldl (fileStep env dataDir job key (snapBase snap.snapshotPath))
        ⟨r, 0, s⟩ :=
  ⟨_, rfl⟩

/-- A run of `execute` without a failed call, over a well-formed source directory apart from the
chunk store, from a sound store: the store stays sound for the job's settings, and the job's
manifests are those of the files of the source, in order, each recorded from its bytes. -/
theorem execute_recorded {now : Nat} {s : Sys} {es : List (String × Node)}
    (hc : env.codec.Lawful) (hinj : Set.InjOn env.codec.hashHex {w | w ∈ W})
    (hsrc : s.fs.lookup (splitPath job.sourcePath) = some (.dir es)) (hwf : Node.WfOf es)
    (hW : ∀ x ∈ Node.filesOf es, ∀ w ∈ windows (s.fs.inodes x.2), w ∈ W)
    (hsound : Sound env.codec (storageDir dataDir) job.compression job.encrypt key W s.db s.fs)
    (hids : s.db.ManifestIdsBelow)
    (hs₁ : ¬ splitPath (storageDir dataDir) <+: splitPath job.sourcePath)
    (hs₂ : ¬ splitPath job.sourcePath <+: splitPath (storageDir dataDir))
    (hsep : ¬ splitPath job.sourcePath <+:
      splitPath (snapshotDir (snapshotsDir dataDir) job.jobId now))
    (hcl : (execute env dataDir now job key s).2.failed = s.failed) :
    let r := execute env dataDir now job key s
    Sound env.codec (storageDir dataDir) job.compression job.encrypt key W r.2.db r.2.fs ∧
      r.2.db.ManifestIdsBelow ∧
      ∃ ms, List.Forall₂ (fun m x => Recorded env.codec m x.1 (s.fs.inodes x.2)) ms
          (Node.filesOf es) ∧
        r.2.db.getFileManifests job.jobId = s.db.getFileManifests job.jobId ++ ms := by
  obtain ⟨-, hfs⟩ := execute_of_clean hcl
  obtain ⟨hcons, hst, -⟩ := fromSnapshot_of_clean hfs
  obtain ⟨hino, hlist, hlook⟩ := createSnapshot_dir hsrc hwf hsep Prod.mk.eta.symm hcons
  obtain ⟨hpath, -⟩ := createSnapshot_dir_put hsrc hsep Prod.mk.eta.symm hcons
  obtain ⟨ha₁, ha₂⟩ := storage_apart_snapshot dataDir job.jobId now
  generalize hsnap : createSnapshot s.fs (snapshotsDir dataDir) job.jobId job.sourcePath now = snap
    at hcons hst hino hlist hlook hpath
  -- after `RUNNING` and the snapshot
  have hsame₀ := Db.sameManifests_updateJobStatus s.db job.jobId .running "" (env.dbOk s.writes)
  have hsound₀ : Sound env.codec (storageDir dataDir) job.compression job.encrypt key W
      (running env job s).db snap.2 :=
    (hsound.of_chunks (by simp)).of_writesOutside (Fs.writesOutside_createSnapshot hsrc hwf hsep
      hs₁ hs₂ ha₁ ha₂ (hsnap ▸ Prod.mk.eta.symm) hcons)
  -- the file loop
  obtain ⟨r₀, hloop⟩ := storeFiles_eq env dataDir job key snap.1 { running env job s with fs := snap.2 }
  rw [hloop] at hst
  have hfiles := @foldl_fileStep_recorded env dataDir job key W hc hinj
    (snapBase snap.1.snapshotPath)
    (fun x => snapshotDir (snapshotsDir dataDir) job.jobId now ++ "/" ++ joinRel x.1) s.fs.inodes
    (Node.filesOf es) ⟨r₀, 0, { running env job s with fs := snap.2 }⟩
    (fun x hx => by
      rw [splitPath_listed _ hwf hx, hpath, snapBase_snapshotDir, relPath_append_slash, hino]
      exact ⟨hlook x hx, not_prefix_append_of_apart ha₁ ha₂ x.1, rfl, rfl,
        joinRel_ne_empty (Node.ne_nil_of_mem_filesOf hx) (Node.validName_of_mem_filesOf es hwf x hx),
        hW x hx⟩)
    hsound₀ (hsame₀.idsBelow hids) (by rw [← hlist]; exact hst)
  rw [← hlist, ← hloop] at hfiles
  obtain ⟨hsound₁, hids₁, ms, hms, hget⟩ := hfiles
  -- the writes after the loop, and the snapshot's removal
  rw [execute_eq, hsnap, fromSnapshot_of_consistent _ _ _ _ _ hcons]
  have hsame₁ := sameManifests_finishWrites env job key
    (storeFiles env dataDir job key snap.1 { running env job s with fs := snap.2 })
  refine ⟨?_, hsame₁.idsBelow hids₁, ms, hms, ?_⟩
  · refine (hsound₁.of_chunks (by simp)).of_writesOutside ?_
    dsimp only
    rw [finishWrites_fs]
    exact Fs.writesOutside_removeSnapshot _ (hpath ▸ ha₂) (hpath ▸ ha₁)
  · rw [hsame₁.getFileManifests_eq, hget]
    exact congrArg (· ++ ms) (hsame₀.getFileManifests_eq job.jobId)

end Worker

end FileBackup


