import FileBackup.RoundTrip.Store
import FileBackup.HashFile

/-!
# The chunks `store_file` records

`store_file` walks a file in 64 KiB windows. A window is recorded when its hash is already
stored (deduplicated) or once its chunk file is written; `offset` and `chunk_idx` advance only
when a window is recorded. A new window whose encryption or chunk write fails is skipped with a
logged error (`continue`), as spec §4.3 step 6 and §7 prescribe; a compressor that returns
nothing and a failed `store_chunk` do not skip it.

* `Call.skips`: the failed calls that skip a window;
* `ChunkStore.chunkStep_cases`: a step records its window and fails no skipping call, or skips it
  and fails exactly one;
* `ChunkStore.foldl_chunkStep_kept`: the loop records the layout of a sublist of its windows,
  and the failed skipping calls count the windows left out;
* `Tiles`: chunks that tile a file as spec §4.3 lays them out;
* `ChunkStore.storeFile_kept`: what `store_file` records for every file and every outcome of its
  calls; with no window skipped, the chunks tile the file;
* `ChunkStore.storeFile_offset_slip`: the window after a skipped one is recorded at the skipped
  window's offset.
-/

namespace FileBackup

/-- The failed calls after which `store_file` skips its window: encryption and the chunk file's
write. -/
def Call.skips : Call → Bool
  | .encrypt | .writeChunk => true
  | _ => false

/-! ### The windows -/

/-- Every read but the last is full. -/
theorem readChunks_dropLast : ∀ (n : Nat) (data : Bytes),
    ∀ w ∈ (readChunks n data).dropLast, w.length = chunkSize
  | 0, _ => by simp [readChunks]
  | n + 1, data => by
    unfold readChunks
    split
    · simp
    · intro w hw
      cases hr : readChunks n (data.drop chunkSize) with
      | nil => simp [hr] at hw
      | cons v vs =>
        rw [hr, List.dropLast_cons₂] at hw
        rcases List.mem_cons.1 hw with rfl | hw
        · have hne : data.drop chunkSize ≠ [] := fun h => by
            rw [h, readChunks_nil] at hr; cases hr
          have := List.drop_eq_nil_iff.not.1 hne
          simp only [List.length_take]
          omega
        · exact readChunks_dropLast n _ w (hr ▸ hw)

theorem windows_dropLast (b : Bytes) : ∀ w ∈ (windows b).dropLast, w.length = chunkSize :=
  readChunks_dropLast _ _

theorem flatten_windows (b : Bytes) : (windows b).flatten = b := flatten_readChunks _ _ le_rfl

theorem windows_eq_nil {b : Bytes} : windows b = [] ↔ b = [] := by
  refine ⟨fun h => ?_, fun h => by rw [h]; rfl⟩
  have := sum_length_windows b
  rw [h] at this
  exact List.length_eq_zero.1 this.symm

/-- A full window followed by a short one reads as those two windows. -/
theorem windows_append_full {x y : Bytes} (hx : x.length = chunkSize) (hy : y ≠ [])
    (hy' : y.length ≤ chunkSize) : windows (x ++ y) = [x, y] := by
  have hpos := List.length_pos.2 hy
  have hcs := chunkSize_pos
  have hlen : (x ++ y).length = (y.length - 1 + chunkSize) + 1 := by simp [hx]; omega
  have hxy : x ++ y ≠ [] := by simp [hy]
  rw [windows, hlen, readChunks, if_neg hxy, List.take_left' hx, List.drop_left' hx,
    show y.length - 1 + chunkSize = (y.length - 1 + chunkSize - 1) + 1 by omega, readChunks,
    if_neg hy, List.take_of_length_le hy', List.drop_eq_nil_of_le hy', readChunks_nil]

/-! ### Chunks that tile a file -/

/-- Chunks that tile the bytes `b` as spec §4.3 lays them out: the `k`-th has index `k` and as
offset the sum of the sizes before it; all but the last are `CHUNK_SIZE` long and the last is not
empty and at most that; each has the hash of its slice of `b`; the sizes add up to `|b|`; and
there is no chunk exactly when `b` is empty. -/
structure Tiles (c : Codec) (b : Bytes) (cs : List ChunkInfo) : Prop where
  index : cs.map (·.chunkIndex) = List.range cs.length
  offset : ∀ k (h : k < cs.length), (cs.get ⟨k, h⟩).offset = ((cs.take k).map (·.size)).sum
  full : ∀ ci ∈ cs.dropLast, ci.size = chunkSize
  last : ∀ ci ∈ cs.getLast?, 0 < ci.size ∧ ci.size ≤ chunkSize
  hash : ∀ ci ∈ cs, ci.hash = c.hashHex ((b.drop ci.offset).take ci.size)
  sum : (cs.map (·.size)).sum = b.length
  empty : cs = [] ↔ b = []

/-- An element of the left list of `Forall₂ R` is related to an element of the right one. -/
theorem exists_of_forall₂ {α β : Type} {R : α → β → Prop} : ∀ {l₁ : List α} {l₂ : List β},
    List.Forall₂ R l₁ l₂ → ∀ a ∈ l₁, ∃ b ∈ l₂, R a b
  | _, _, .nil => nofun
  | _, _, .cons h hs => fun a ha => (List.mem_cons.1 ha).elim (fun e => ⟨_, .head _, e ▸ h⟩)
    fun ha => (exists_of_forall₂ hs a ha).imp fun _ hb => ⟨.tail _ hb.1, hb.2⟩

namespace ChunkStore

section Layout

variable {c : Codec}

theorem length_layout : ∀ (offset idx : Nat) (ws : List Bytes),
    (layout c offset idx ws).length = ws.length
  | _, _, [] => rfl
  | _, _, _ :: ws => congrArg (· + 1) (length_layout _ _ ws)

/-- Chunks in a layout are indexed from its first index on. -/
theorem index_of_layout : ∀ {cs : List ChunkInfo} {offset idx : Nat} {ws : List Bytes},
    cs.map ChunkInfo.place = layout c offset idx ws →
    cs.map (·.chunkIndex) = List.range' idx cs.length
  | [], _, _, _, _ => rfl
  | _ :: _, _, _, [], h => by simp [layout] at h
  | _ :: _, _, _, _ :: _, h => by
    simp only [List.map_cons, layout, List.cons.injEq, ChunkInfo.place, Prod.mk.injEq] at h
    simp [h.1.2.2.2, index_of_layout h.2, List.range'_succ]

/-- A chunk in a layout starts where the chunks before it end. -/
theorem offset_of_layout : ∀ {cs : List ChunkInfo} {offset idx : Nat} {ws : List Bytes},
    cs.map ChunkInfo.place = layout c offset idx ws →
    ∀ k (h : k < cs.length), (cs.get ⟨k, h⟩).offset = offset + ((cs.take k).map (·.size)).sum
  | [], _, _, _, _ => nofun
  | _ :: _, _, _, [], h => by simp [layout] at h
  | _ :: _, _, _, _ :: _, h => by
    simp only [List.map_cons, layout, List.cons.injEq, ChunkInfo.place, Prod.mk.injEq] at h
    rintro (_ | k) hk
    · simp [h.1.2.1]
    · simp only [List.get_cons_succ, offset_of_layout h.2 k, List.take_succ_cons, List.map_cons,
        List.sum_cons, h.1.2.2.1]
      omega

/-- A chunk in a layout of the windows after `pre` has the hash of its slice. -/
theorem hash_slice_of_layout : ∀ {cs : List ChunkInfo} {pre : Bytes} {idx : Nat}
    {ws : List Bytes}, cs.map ChunkInfo.place = layout c pre.length idx ws →
    ∀ ci ∈ cs, ci.hash = c.hashHex (((pre ++ ws.flatten).drop ci.offset).take ci.size)
  | [], _, _, _, _ => nofun
  | _ :: _, _, _, [], h => by simp [layout] at h
  | _ :: _, pre, _, w :: ws, h => by
    simp only [List.map_cons, layout, List.cons.injEq, ChunkInfo.place, Prod.mk.injEq] at h
    rintro ci (_ | ⟨_, hci⟩)
    · rw [h.1.1, h.1.2.1, List.flatten_cons, List.drop_left' rfl, List.take_left' h.1.2.2.1.symm]
    · have := @hash_slice_of_layout _ (pre ++ w) _ _ (by simpa using h.2) ci hci
      simpa [List.append_assoc] using this

/-- The layout of a file's windows tiles it. -/
theorem tiles_of_layout {b : Bytes} {cs : List ChunkInfo}
    (h : cs.map ChunkInfo.place = layout c 0 0 (windows b)) : Tiles c b cs := by
  have h₂ := forall₂_of_layout h
  have hsize : cs.map (·.size) = (windows b).map List.length := by
    rw [← List.forall₂_eq_eq_eq]
    exact List.forall₂_map_left_iff.2 (List.forall₂_map_right_iff.2 (h₂.imp fun _ _ h => h.2))
  refine ⟨by rw [index_of_layout h, List.range_eq_range'], fun k hk => by
    simpa using offset_of_layout h k hk, fun ci hci => ?_, fun ci hci => ?_,
    fun ci hci => by simpa [flatten_windows] using @hash_slice_of_layout c _ [] _ _ h ci hci,
    by rw [hsize, sum_length_windows], ?_⟩
  · rw [List.dropLast_eq_take] at hci
    obtain ⟨w, hw, hr⟩ := exists_of_forall₂ (List.forall₂_take _ h₂) ci hci
    rw [hr.2]
    exact windows_dropLast b w (by rwa [List.dropLast_eq_take, ← h₂.length_eq])
  · obtain ⟨w, hw, hr⟩ := exists_of_forall₂ h₂ ci (List.mem_of_getLast?_eq_some hci)
    have := mem_readChunks hw
    exact ⟨hr.2 ▸ List.length_pos.2 this.1, hr.2 ▸ this.2⟩
  · rw [← List.length_eq_zero, h₂.length_eq, List.length_eq_zero, windows_eq_nil]

end Layout

/-! ### What the loop records -/

section Loop

variable (env : Env) (storageDir : String) (comp : CompressionType) (encrypt : Bool)
  (key : Bytes32)

/-- An encoding fails one skipping call when it gives nothing (its encryption failed), none
otherwise. -/
theorem countP_skips_encodeChunk (w : Bytes) :
    (encodeChunk env.codec comp encrypt key w).2.countP Call.skips =
      if (encodeChunk env.codec comp encrypt key w).1 = none then 1 else 0 := by
  unfold encodeChunk
  dsimp only
  split_ifs <;> simp_all [Call.skips]

/-- A metadata write fails no skipping call. -/
theorem countP_skips_write (s : Sys) (env : Env) (call : Call) (w : Db → Bool → Bool × Db)
    (hc : call.skips = false) :
    (s.write env call w).2.failed.countP Call.skips = s.failed.countP Call.skips := by
  rw [Sys.failed_write]; split <;> simp [List.countP_append, hc]

/-- One step of the loop records its window and fails no skipping call, or skips it (chunks,
`offset` and `chunk_idx` unchanged) and fails exactly one. -/
theorem chunkStep_cases (l : Loop) (w : Bytes) :
    (∃ s d, chunkStep env storageDir comp encrypt key l w = l.push (env.codec.hashHex w) w s d ∧
        s.failed.countP Call.skips = l.sys.failed.countP Call.skips) ∨
      (∃ s, chunkStep env storageDir comp encrypt key l w = { l with sys := s } ∧
        s.failed.countP Call.skips = l.sys.failed.countP Call.skips + 1) := by
  have hc := countP_skips_encodeChunk env comp encrypt key w
  dsimp only [chunkStep]
  split
  · exact .inl ⟨_, _, rfl, rfl⟩
  · split
    · rename_i hnone
      rw [hnone, if_pos rfl] at hc
      exact .inr ⟨_, rfl, by simp [List.countP_append, hc]⟩
    · rename_i p hp
      rw [hp, if_neg nofun] at hc
      split
      · exact .inr ⟨_, rfl, by simp [List.countP_append, hc, Call.skips]⟩
      · refine .inl ⟨_, _, rfl, ?_⟩
        rw [Sys.failed_write]
        split <;> simp [List.countP_append, hc, Call.skips]

/-- The loop over the windows `ws` records, after the chunks it had, the layout of a sublist
`kept` of `ws` from its offset and index; each window it leaves out fails one skipping call. -/
theorem foldl_chunkStep_kept : ∀ (ws : List Bytes) (l : Loop),
    ∃ kept, kept.Sublist ws ∧
      (ws.foldl (chunkStep env storageDir comp encrypt key) l).chunks.map ChunkInfo.place =
        l.chunks.map ChunkInfo.place ++ layout env.codec l.offset l.idx kept ∧
      kept.length +
          (ws.foldl (chunkStep env storageDir comp encrypt key) l).sys.failed.countP Call.skips =
        ws.length + l.sys.failed.countP Call.skips
  | [], l => ⟨[], .slnil, by simp [layout], by simp⟩
  | w :: ws, l => by
    rw [List.foldl_cons, List.length_cons]
    rcases chunkStep_cases env storageDir comp encrypt key l w with ⟨s, d, he, hs⟩ | ⟨s, he, hs⟩ <;>
      rw [he]
    · -- recorded: the window heads the kept ones
      obtain ⟨kept, hsub, hmap, hcount⟩ :=
        foldl_chunkStep_kept ws (l.push (env.codec.hashHex w) w s d)
      simp only [Loop.push_sys, hs] at hcount
      refine ⟨w :: kept, hsub.cons₂ w, ?_, by simp only [List.length_cons]; omega⟩
      rw [hmap]
      simp [Loop.push, layout, ChunkInfo.place]
    · -- skipped: one more failed skipping call
      obtain ⟨kept, hsub, hmap, hcount⟩ := foldl_chunkStep_kept ws { l with sys := s }
      rw [hs] at hcount
      exact ⟨kept, hsub.cons w, hmap, by omega⟩

end Loop

/-- What `store_file` records for a regular file with bytes `b`, whatever its compress, encrypt,
chunk-write and metadata calls return. The manifest's size is `|b|`; its chunks are, in order, a
sublist of the windows of `b`, each with its window's hash and size, indexed `0, 1, …`; and each
window left out failed one encryption or chunk write. When no encryption and no chunk write
fails, no window is left out and the chunks tile `b`. -/
theorem storeFile_kept {env : Env} {storageDir : String} {s : Sys} {filePath : String}
    {comp : CompressionType} {encrypt : Bool} {key : Bytes32} {jobId : Int} {rel : String}
    {b : Bytes} (hb : s.fs.readFile (splitPath filePath) = some b) :
    let r := storeFile env storageDir s filePath comp encrypt key jobId rel
    r.1.fileSize = b.length ∧
      (∃ kept, kept.Sublist (windows b) ∧
        List.Forall₂ (fun ci w => ci.hash = env.codec.hashHex w ∧ ci.size = w.length)
          r.1.chunks kept) ∧
      r.1.chunks.map (·.chunkIndex) = List.range r.1.chunks.length ∧
      r.1.chunks.length + r.2.failed.countP Call.skips =
        (windows b).length + s.failed.countP Call.skips ∧
      (r.2.failed.countP Call.skips = s.failed.countP Call.skips → Tiles env.codec b r.1.chunks) := by
  obtain ⟨i, hf, rfl⟩ := Fs.readFile_eq_some.1 hb
  rw [storeFile_of_file env storageDir comp encrypt key jobId rel hf]
  dsimp only
  obtain ⟨kept, hsub, hmap, hcount⟩ :=
    foldl_chunkStep_kept env storageDir comp encrypt key (windows (s.fs.inodes i)) ⟨[], 0, 0, s⟩
  simp only [List.map_nil, List.nil_append] at hmap hcount
  have hlen : (List.foldl (chunkStep env storageDir comp encrypt key) ⟨[], 0, 0, s⟩
      (windows (s.fs.inodes i))).chunks.length = kept.length := by
    rw [← List.length_map _ ChunkInfo.place, hmap, length_layout]
  refine ⟨rfl, ⟨kept, hsub, forall₂_of_layout hmap⟩, ?_, ?_, fun hno => ?_⟩
  · rw [index_of_layout hmap, List.range_eq_range']
  · rw [countP_skips_write _ _ .storeFileManifest _ rfl, hlen]; exact hcount
  · rw [countP_skips_write _ _ .storeFileManifest _ rfl] at hno
    have hk : kept = windows (s.fs.inodes i) := hsub.eq_of_length (by omega)
    exact tiles_of_layout (hk ▸ hmap)

/-- `/data/a` holds a full window of `1`s and then the byte `2`; `/store/chunks/01`, where the
first window's chunk directory belongs, is a regular file. -/
def twoWindowFs : Fs :=
  ⟨.dir [("data", .dir [("a", .file 0)]), ("store", .dir [("chunks", .dir [("01", .file 1)])])],
    fun n => if n = 0 then List.replicate chunkSize 1 ++ [2] else [], 2⟩

/-- Job `1` submitted over `/data`, no chunk stored, and the files of `twoWindowFs`. -/
def twoWindowStart : Sys :=
  { db := (Db.empty.createJob { sourcePath := "/data", backupName := "two" } 0 true).2,
    fs := twoWindowFs }

theorem storeFile_kept_twoWindows :
    twoWindowStart.fs.readFile (splitPath "/data/a") = some (twoWindowFs.inodes 0) ∧
    let r := storeFile (Env.reliable Codec.transparent) "/store" twoWindowStart
      "/data/a" .none false Bytes32.zero 1 ""
    let b := twoWindowFs.inodes 0
    r.1.fileSize = b.length ∧
      (∃ kept, kept.Sublist (windows b) ∧
        List.Forall₂ (fun ci w => ci.hash = Codec.transparent.hashHex w ∧ ci.size = w.length)
          r.1.chunks kept) ∧
      r.1.chunks.map (·.chunkIndex) = List.range r.1.chunks.length ∧
      r.1.chunks.length + r.2.failed.countP Call.skips =
        (windows b).length + twoWindowStart.failed.countP Call.skips ∧
      (r.2.failed.countP Call.skips = twoWindowStart.failed.countP Call.skips →
        Tiles Codec.transparent b r.1.chunks) :=
  ⟨rfl, @storeFile_kept (Env.reliable Codec.transparent) "/store" twoWindowStart "/data/a" .none
    false Bytes32.zero 1 "" (twoWindowFs.inodes 0) rfl⟩

/-- `store_file("/data/a", NONE, no encryption)` into the store `/store`: the first window's
chunk write fails and the window is skipped, as designed; the second window is then recorded at
offset `0` with index `0`, the place of the skipped window, so the chunks do not add up to the
file's size, and the recorded chunk's hash is not that of the bytes at its offset. -/
theorem storeFile_offset_slip :
    let b : Bytes := List.replicate chunkSize 1 ++ [2]
    let r := storeFile (Env.reliable Codec.transparent) "/store"
      twoWindowStart "/data/a" .none false Bytes32.zero 1 ""
    twoWindowFs.readFile ["data", "a"] = some b ∧ windows b = [List.replicate chunkSize 1, [2]] ∧
      r.2.failed = [.writeChunk] ∧
      r.1.chunks = [{ hash := Codec.transparent.hashHex [2], offset := 0, size := 1,
                      chunkIndex := 0 }] ∧
      r.1.fileSize = chunkSize + 1 ∧ (r.1.chunks.map (·.size)).sum ≠ r.1.fileSize ∧
      ∃ ci ∈ r.1.chunks, ci.hash ≠ Codec.transparent.hashHex ((b.drop ci.offset).take ci.size) := by
  intro b r
  have hw : windows b = [List.replicate chunkSize 1, [2]] :=
    windows_append_full (by simp) (by simp) (by simp [chunkSize])
  have hr : r = _ := storeFile_of_file _ _ _ _ _ _ _ (show twoWindowStart.fs.lookup
    (splitPath "/data/a") = some (.file 0) from rfl)
  rw [show twoWindowStart.fs.inodes 0 = b from rfl, hw] at hr
  have hchunks : r.1.chunks = [{ hash := Codec.transparent.hashHex [2], offset := 0, size := 1,
                                 chunkIndex := 0 }] := by rw [hr]; decide
  have hsize : r.1.fileSize = chunkSize + 1 := by rw [hr]; simp [b]
  refine ⟨rfl, hw, by rw [hr]; decide, hchunks, hsize, by rw [hchunks, hsize]; decide, _,
    hchunks ▸ List.mem_singleton_self _, by decide⟩

end ChunkStore

end FileBackup
