import FileBackup.MetadataFaults

/-!
# A chunk row that does not describe its chunk

An empty result from `Compressor::compress` makes `store_file` store the raw window, but
`store_chunk` is passed the job's compression type: the row describes LZ4 data that is not there,
and decoding the chunk as its row says does not give back its hash
(`fallback_chunk_undecodable`). This happens with libraries that meet every law of
`Codec.Lawful`: `Codec.lz4Fails`, whose LZ4 calls always fail. (A failed encryption or chunk write
skips its window instead; see `Tiling`.)

* `ChunkRow.decode`: the bytes a row's file decodes to as the row describes it.
-/

namespace FileBackup

namespace Codec

/-- `transparent` with LZ4 calls that fail (return nothing) on every input. -/
def lz4Fails : Codec :=
  { transparent with lz4Compress := fun _ => [], lz4Decompress := fun _ _ => [] }

theorem lz4Fails_lawful : lz4Fails.Lawful :=
  { transparent_lawful with lz4 := fun _ h => absurd rfl h }

end Codec

/-- The bytes a `chunks` row's file `raw` decodes to as the row describes it: decrypted with
`key` when the row says `encrypted`, then decompressed with the row's `compression` and
`original_size`, the two steps of `restore_file`. -/
def ChunkRow.decode (c : Codec) (key : Bytes32) (row : ChunkRow) (raw : Bytes) : Bytes :=
  c.decompress row.compression (if row.encrypted then c.decrypt key raw else raw) row.originalSize

/-- The store before the calls below: job `1` submitted, nothing else stored, and the file
`/data/a = [7]`. -/
def oneFileStart : Sys := { db := (Db.empty.createJob oneFileJob 0 true).2, fs := oneFileFs }

/-- `store_file("/data/a", LZ4, no encryption)` when the compressor returns nothing: the raw
window `[7]` is written to its chunk file, and its row says LZ4 with original size `1`.
Decoding the file as the row says gives no bytes, whose hash is not the row's. -/
theorem fallback_chunk_undecodable :
    let r : FileManifest × Sys := ChunkStore.storeFile (Env.reliable Codec.lz4Fails) "/store"
      oneFileStart "/data/a" .lz4 false Bytes32.zero 1 ""
    let h : String := Codec.lz4Fails.hashHex [7]
    let row : ChunkRow := ⟨h, ChunkStore.getChunkPath "/store" h, 1, 1, .lz4, false, 1⟩
    Codec.lz4Fails.Lawful ∧ r.2.failed = [.compress] ∧ r.2.db.chunks h = some row ∧
      r.2.fs.readFile (splitPath row.storagePath) = some [7] ∧ row.storedSize = [7].length ∧
      row.decode Codec.lz4Fails Bytes32.zero [7] = [] ∧
      Codec.lz4Fails.hashHex (row.decode Codec.lz4Fails Bytes32.zero [7]) ≠ row.hash :=
  ⟨Codec.lz4Fails_lawful, by decide⟩

end FileBackup
