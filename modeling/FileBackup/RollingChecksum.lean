import FileBackup.Basic
import Mathlib.Data.String.Basic

/-!
# `RollingChecksum` (`rolling_checksum.h`)

The Adler-32 style weak checksum: two sums `a_` and `b_` kept in `uint32_t` and reduced mod
`MOD = 65521`; `roll` slides a window by one byte in constant time.

* `RollingChecksum` and its calls `reset`, `update`, `updateBytes`, `roll`, `digest`,
  `compute`, in the code's fixed-width types: the sums are `UInt32`, and the second line of
  `roll` is computed in `size_t` (`UInt64`), because `window_len` is a `size_t`;
* `sums`: the unreduced sums, and `toNat_updateBytes`: `update` keeps exactly their residues;
* `sums_window`: sliding a window by one byte moves the unreduced `b` by
  `a' - 1 - window_len * old_byte`;
* `roll_eq_updateBytes`: while `window_len * old_byte < 2 * MOD`, `roll` gives the state
  `compute` reaches on the slid window;
* `roll_underflow`: past that bound the `size_t` difference wraps mod `2^64`, and since
  `2^64` is not a multiple of `MOD` the rolled digest is not the recomputed one.

`window_size_` and `count_` are written and never read, so they are left out.
-/

namespace FileBackup

/-- The two sums `a_`, `b_`. -/
structure RollingChecksum where
  a : UInt32
  b : UInt32
  deriving DecidableEq, Repr

namespace RollingChecksum

/-- `MOD`. -/
def mod : UInt32 := 65521

@[simp] theorem mod_toNat : mod.toNat = 65521 := rfl

/-- The constructor and `reset()`: `a_ = 1`, `b_ = 0`. -/
def reset : RollingChecksum := ⟨1, 0⟩

/-- `update(byte)`: `a_ = (a_ + byte) % MOD; b_ = (b_ + a_) % MOD`. -/
def update (rc : RollingChecksum) (byte : UInt8) : RollingChecksum :=
  let a := (rc.a + byte.toUInt32) % mod
  ⟨a, (rc.b + a) % mod⟩

/-- `update(data, len)`: the same step for each byte. -/
def updateBytes (rc : RollingChecksum) (data : Bytes) : RollingChecksum :=
  data.foldl update rc

/-- `roll(old_byte, new_byte, window_len)`. The first line is `uint32_t` arithmetic; in the
second, `window_len * old_byte` is a `size_t`, so the whole right side is computed mod `2^64`
before `% MOD` and the store back into `b_`. -/
def roll (rc : RollingChecksum) (oldByte newByte : UInt8) (windowLen : UInt64) :
    RollingChecksum :=
  let a := (rc.a - oldByte.toUInt32 + newByte.toUInt32 + mod) % mod
  ⟨a, ((rc.b.toUInt64 - windowLen * oldByte.toUInt64 + a.toUInt64 - 1 + (mod * 2).toUInt64) %
    mod.toUInt64).toUInt32⟩

/-- `digest()`: `(b_ << 16) | a_`. -/
def digest (rc : RollingChecksum) : UInt32 := (rc.b <<< 16) ||| rc.a

/-- `compute(data, len)`: a fresh checksum updated with the block. -/
def compute (data : Bytes) : UInt32 := (reset.updateBytes data).digest

@[simp] theorem updateBytes_nil (rc : RollingChecksum) : rc.updateBytes [] = rc := rfl

@[simp] theorem updateBytes_cons (rc : RollingChecksum) (x : UInt8) (xs : Bytes) :
    rc.updateBytes (x :: xs) = (rc.update x).updateBytes xs := rfl

/-! ## The unreduced sums -/

/-- The sums without reduction: each byte `x` makes `a := a + x`, then `b := b + a`. -/
def sums : Nat × Nat → Bytes → Nat × Nat
  | s, [] => s
  | (a, b), x :: xs => sums (a + x.toNat, b + (a + x.toNat)) xs

/-- The sums are linear in the start: `a` adds once to `a` and once per byte to `b`. -/
theorem sums_eq (a b : Nat) (xs : Bytes) :
    sums (a, b) xs = (a + (sums (0, 0) xs).1, b + xs.length * a + (sums (0, 0) xs).2) := by
  induction xs generalizing a b with
  | nil => simp [sums]
  | cons x xs ih =>
    rw [sums, sums, ih, ih (0 + x.toNat)]
    simp only [List.length_cons, Nat.add_mul, Nat.mul_add]
    ext <;> dsimp only <;> omega

theorem sums_append_singleton (s : Nat × Nat) (xs : Bytes) (y : UInt8) :
    sums s (xs ++ [y]) = ((sums s xs).1 + y.toNat, (sums s xs).2 + ((sums s xs).1 + y.toNat)) := by
  induction xs generalizing s with
  | nil => rfl
  | cons x xs ih => obtain ⟨a, b⟩ := s; exact ih _

theorem sums_replicate_zero (s : Nat × Nat) (k : Nat) :
    sums s (List.replicate k 0) = (s.1, s.2 + k * s.1) := by
  induction k generalizing s with
  | zero => simp [sums]
  | succ k ih =>
    obtain ⟨a, b⟩ := s
    rw [List.replicate_succ, sums, ih]
    simp only [UInt8.toNat_zero, Nat.add_zero, Nat.succ_mul, Prod.mk.injEq, true_and]
    omega

/-- Sliding the window `z :: t` to `t ++ [x]`: the new `b` plus `window_len * z` plus one is the
old `b` plus the new `a` (the identity `roll` computes with), and the new `a` plus `z` is the old
`a` plus `x`. -/
theorem sums_window (z x : UInt8) (t : Bytes) :
    (sums (1, 0) (t ++ [x])).2 + (t.length + 1) * z.toNat + 1 =
        (sums (1, 0) (z :: t)).2 + (sums (1, 0) (t ++ [x])).1 ∧
      (sums (1, 0) (t ++ [x])).1 + z.toNat = (sums (1, 0) (z :: t)).1 + x.toNat := by
  rw [sums_append_singleton, sums, sums_eq 1 0, sums_eq (1 + z.toNat)]
  simp only [Nat.add_mul, Nat.mul_add]
  omega

/-! ## `update` keeps the residues of the sums -/

theorem toNat_update {rc : RollingChecksum} {a b : Nat} (ha : rc.a.toNat = a % 65521)
    (hb : rc.b.toNat = b % 65521) (x : UInt8) :
    (rc.update x).a.toNat = (a + x.toNat) % 65521 ∧
      (rc.update x).b.toNat = (b + (a + x.toNat)) % 65521 := by
  have hx : x.toNat < 256 := x.toNat_lt_size
  simp only [update, UInt32.toNat_mod, UInt32.toNat_add, UInt8.toUInt32_toNat, mod_toNat, ha, hb,
    UInt32.size]
  omega

theorem toNat_updateBytes (xs : Bytes) {rc : RollingChecksum} {a b : Nat}
    (ha : rc.a.toNat = a % 65521) (hb : rc.b.toNat = b % 65521) :
    (rc.updateBytes xs).a.toNat = (sums (a, b) xs).1 % 65521 ∧
      (rc.updateBytes xs).b.toNat = (sums (a, b) xs).2 % 65521 := by
  induction xs generalizing rc a b with
  | nil => exact ⟨ha, hb⟩
  | cons x xs ih =>
    obtain ⟨ha', hb'⟩ := toNat_update ha hb x
    exact ih ha' hb'

theorem ext_toNat {r s : RollingChecksum} (ha : r.a.toNat = s.a.toNat)
    (hb : r.b.toNat = s.b.toNat) : r = s := by
  cases r; cases s; cases UInt32.ext ha; cases UInt32.ext hb; rfl

/-- A reduced state updated with `k` zero bytes keeps `a` and adds `k * a` to `b`. -/
theorem updateBytes_replicate_zero {rc : RollingChecksum} (ha : rc.a.toNat < 65521)
    (hb : rc.b.toNat < 65521) (k : Nat) :
    (rc.updateBytes (List.replicate k 0)).a = rc.a ∧
      (rc.updateBytes (List.replicate k 0)).b.toNat = (rc.b.toNat + k * rc.a.toNat) % 65521 := by
  obtain ⟨h1, h2⟩ := toNat_updateBytes (List.replicate k 0) (Nat.mod_eq_of_lt ha).symm
    (Nat.mod_eq_of_lt hb).symm
  rw [sums_replicate_zero] at h1 h2
  exact ⟨UInt32.ext (h1.trans (Nat.mod_eq_of_lt ha)), h2⟩

/-! ## `roll` against `compute` -/

theorem roll_a (rc : RollingChecksum) (z x : UInt8) (n : UInt64) :
    (rc.roll z x n).a = (rc.a - z.toUInt32 + x.toUInt32 + mod) % mod := rfl

theorem roll_b (rc : RollingChecksum) (z x : UInt8) (n : UInt64) :
    (rc.roll z x n).b = ((rc.b.toUInt64 - n * z.toUInt64 + (rc.roll z x n).a.toUInt64 - 1 +
      (mod * 2).toUInt64) % mod.toUInt64).toUInt32 := rfl

/-- `roll` on reduced sums, while `window_len * old_byte < 2 * MOD`: the `uint32_t` and
`size_t` differences then come back in range before `% MOD`. (The `UInt` lemmas are used by
`rw`: as `simp` lemmas they are definitional, and the kernel then unfolds the literal moduli.) -/
theorem toNat_roll {rc : RollingChecksum} (ha : rc.a.toNat < 65521) (hb : rc.b.toNat < 65521)
    (z x : UInt8) {n : UInt64} (hn : n.toNat * z.toNat < 2 * 65521) :
    (rc.roll z x n).a.toNat = (rc.a.toNat + 65521 + x.toNat - z.toNat) % 65521 ∧
      (rc.roll z x n).b.toNat = (rc.b.toNat + (rc.a.toNat + 65521 + x.toNat - z.toNat) % 65521 +
        131041 - n.toNat * z.toNat) % 65521 := by
  have hz : z.toNat < 256 := z.toNat_lt_size
  have hx : x.toNat < 256 := x.toNat_lt_size
  have ha' : (rc.roll z x n).a.toNat = (rc.a.toNat + 65521 + x.toNat - z.toNat) % 65521 := by
    rw [roll_a, UInt32.toNat_mod, UInt32.toNat_add, UInt32.toNat_add, UInt32.toNat_sub,
      UInt8.toUInt32_toNat, UInt8.toUInt32_toNat, mod_toNat, UInt32.size]
    omega
  refine ⟨ha', ?_⟩
  rw [roll_b, ← ha']
  generalize (rc.roll z x n).a = a' at *
  rw [UInt64.toUInt32_toNat, UInt64.toNat_mod, UInt64.toNat_add, UInt64.toNat_sub,
    UInt64.toNat_add, UInt64.toNat_sub, UInt64.toNat_mul, UInt32.toUInt64_toNat,
    UInt32.toUInt64_toNat, UInt32.toUInt64_toNat, UInt32.toUInt64_toNat, UInt8.toUInt64_toNat,
    UInt32.toNat_mul, mod_toNat, UInt64.toNat_ofNat, UInt32.toNat_ofNat,
    Nat.mod_eq_of_lt (lt_trans hn (by decide : 2 * 65521 < UInt64.size))]
  simp only [Nat.mod_add_mod, Nat.add_mod_mod, UInt32.size, UInt64.size]
  -- the `size_t` sum passes `2^64` twice and comes back to the difference, below `2^64`
  have hsum : 18446744073709551616 - 1 % 18446744073709551616 +
      (18446744073709551616 - n.toNat * z.toNat + rc.b.toNat + a'.toNat) +
        65521 * (2 % 4294967296) % 4294967296 =
      (rc.b.toNat + a'.toNat + 131041 - n.toNat * z.toNat) + 18446744073709551616 * 2 := by
    omega
  have hk : rc.b.toNat + a'.toNat + 131041 - n.toNat * z.toNat < 18446744073709551616 := by omega
  rw [hsum, Nat.add_mul_mod_self_left, Nat.mod_eq_of_lt hk]
  exact Nat.mod_eq_of_lt (lt_trans (Nat.mod_lt _ (by decide)) (by decide))

/-- While `window_len * old_byte < 2 * MOD`, rolling the window `z :: t` by `x` gives the state
a fresh checksum reaches on `t ++ [x]`. -/
theorem roll_eq_updateBytes (z x : UInt8) (t : Bytes) (h : (t.length + 1) * z.toNat < 2 * 65521) :
    (reset.updateBytes (z :: t)).roll z x (t.length + 1).toUInt64 = reset.updateBytes (t ++ [x]) := by
  obtain ⟨ha, hb⟩ := @toNat_updateBytes (z :: t) reset 1 0 rfl rfl
  obtain ⟨ha', hb'⟩ := @toNat_updateBytes (t ++ [x]) reset 1 0 rfl rfl
  obtain ⟨hB, hA⟩ := sums_window z x t
  have hz : z.toNat < 256 := z.toNat_lt_size
  have hn : (t.length + 1).toUInt64.toNat * z.toNat = (t.length + 1) * z.toNat := by
    rcases Nat.eq_zero_or_pos z.toNat with h0 | h0
    · rw [h0, Nat.mul_zero, Nat.mul_zero]
    · rw [Nat.toUInt64, UInt64.toNat_ofNat_of_lt
        (lt_of_le_of_lt (Nat.le_mul_of_pos_right _ h0) (lt_trans h (by decide)))]
  obtain ⟨ra, rb⟩ := toNat_roll (ha ▸ Nat.mod_lt _ (by decide)) (hb ▸ Nat.mod_lt _ (by decide)) z x
    (hn ▸ h)
  apply ext_toNat
  · rw [ra, ha, ha']
    omega
  · rw [rb, ha, hb, hb', hn]
    omega

theorem roll_eq_updateBytes_three :
    (2 + 1) * (255 : UInt8).toNat < 2 * 65521 ∧
      (reset.updateBytes [255, 1, 2]).roll 255 3 (2 + 1).toUInt64 = reset.updateBytes ([1, 2] ++ [3]) :=
  ⟨by decide, roll_eq_updateBytes 255 3 [1, 2] (by decide)⟩

/-- The window of a `255` and `767` zero bytes (`n = 768`), rolled by a zero byte:
`window_len * old_byte = 195840` exceeds `b_ + a_ - 1 + 2 * MOD = 131087`, so the `size_t`
difference wraps mod `2^64`; `roll` leaves `b_ = 51393`, where the slid window (`768` zeros)
recomputes to `b_ = 768`, and the digests differ. -/
theorem roll_underflow :
    reset.updateBytes (255 :: List.replicate 767 0) = ⟨256, 45⟩ ∧
      (reset.updateBytes (255 :: List.replicate 767 0)).roll 255 0 768 = ⟨1, 51393⟩ ∧
      reset.updateBytes (List.replicate 767 0 ++ [0]) = ⟨1, 768⟩ ∧
      ((reset.updateBytes (255 :: List.replicate 767 0)).roll 255 0 768).digest ≠
        compute (List.replicate 767 0 ++ [0]) := by
  have h1 : reset.updateBytes (255 :: List.replicate 767 0) = ⟨256, 45⟩ := by
    obtain ⟨ha, hb⟩ := updateBytes_replicate_zero (by decide : (reset.update 255).a.toNat < 65521)
      (by decide) 767
    rw [updateBytes_cons]
    exact ext_toNat (by rw [ha]; decide) (by rw [hb]; decide)
  have h2 : reset.updateBytes (List.replicate 767 0 ++ [0]) = ⟨1, 768⟩ := by
    obtain ⟨ha, hb⟩ := updateBytes_replicate_zero (by decide : reset.a.toNat < 65521) (by decide) 768
    rw [← List.replicate_succ']
    exact ext_toNat (by rw [ha]; decide) (by rw [hb]; decide)
  have h3 : (⟨256, 45⟩ : RollingChecksum).roll 255 0 768 = ⟨1, 51393⟩ := by decide
  refine ⟨h1, h1 ▸ h3, h2, ?_⟩
  rw [compute, h1, h2, h3]
  decide

end RollingChecksum

end FileBackup
