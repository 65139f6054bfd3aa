/-
A byte-addressed memory with 64-bit addresses, little-endian words and blocks.

* `readLE64`, `writeLE64` — one little-endian 64-bit word;
* `writeBytes`, `readBytes` — a block of bytes (`memcpy`, `memset`);
* `readLE64_writeLE64_same` — a word reads back what was stored;
* `readLE64_writeBytes_disjoint`, `writeBytes_ofNat` — what a block store does
  to the rest of memory, in terms of ranges of natural numbers.

Nothing here is about a particular program: an address is a 64-bit word, and
the lemmas turn wrapping address arithmetic into arithmetic on ranges of
natural numbers that end at or below `2 ^ 64`.
-/
import Mathlib

namespace ByteMemory

abbrev Addr := BitVec 64

abbrev Byte := BitVec 8

/-- A memory: one byte at every 64-bit address. -/
abbrev Mem := Addr → Byte

/-- The little-endian 64-bit word at address `a`. -/
def readLE64 (m : Mem) (a : Addr) : BitVec 64 :=
  m (a + 7#64) ++ m (a + 6#64) ++ m (a + 5#64) ++ m (a + 4#64) ++
    m (a + 3#64) ++ m (a + 2#64) ++ m (a + 1#64) ++ m (a + 0#64)

/-- The little-endian 32-bit word at address `a`. -/
def readLE32 (m : Mem) (a : Addr) : BitVec 32 :=
  m (a + 3#64) ++ m (a + 2#64) ++ m (a + 1#64) ++ m (a + 0#64)

/-- Store the bytes `f 0, …, f (n - 1)` at `a`. -/
def writeBytes (m : Mem) (a : Addr) (n : ℕ) (f : ℕ → Byte) : Mem :=
  fun x => if (x - a).toNat < n then f (x - a).toNat else m x

/-- The `n` bytes from address `a` on. -/
def readBytes (m : Mem) (a : Addr) (n : ℕ) : List Byte :=
  (List.range n).map fun i => m (a + BitVec.ofNat 64 i)

/-- Byte `i` of a word, the least significant first. -/
def byteOf (v : BitVec 64) (i : ℕ) : Byte := v.extractLsb' (8 * i) 8

/-- A word as the eight bytes of its little-endian representation. -/
def leBytes (v : BitVec 64) : List Byte := (List.range 8).map (byteOf v)

/-- Store a little-endian word at `a`. -/
def writeLE64 (m : Mem) (a : Addr) (v : BitVec 64) : Mem := writeBytes m a 8 (byteOf v)

/-! ### Words and their bytes -/

theorem append_byteOf (v : BitVec 64) :
    byteOf v 7 ++ byteOf v 6 ++ byteOf v 5 ++ byteOf v 4 ++
      byteOf v 3 ++ byteOf v 2 ++ byteOf v 1 ++ byteOf v 0 = v := by
  unfold byteOf
  rw [BitVec.extractLsb'_append_extractLsb'_eq_extractLsb' (by omega),
    BitVec.extractLsb'_append_extractLsb'_eq_extractLsb' (by omega),
    BitVec.extractLsb'_append_extractLsb'_eq_extractLsb' (by omega),
    BitVec.extractLsb'_append_extractLsb'_eq_extractLsb' (by omega),
    BitVec.extractLsb'_append_extractLsb'_eq_extractLsb' (by omega),
    BitVec.extractLsb'_append_extractLsb'_eq_extractLsb' (by omega),
    BitVec.extractLsb'_append_extractLsb'_eq_extractLsb' (by omega)]
  simp

@[simp] theorem leBytes_length (v : BitVec 64) : (leBytes v).length = 8 := by
  simp [leBytes]

theorem leBytes_injective : Function.Injective leBytes := by
  intro v w h
  have hb : ∀ i, i < 8 → byteOf v i = byteOf w i := by
    intro i hi
    have hget := congrArg (fun l : List Byte => l[i]?) h
    simpa [leBytes, List.getElem?_range hi] using hget
  rw [← append_byteOf v, ← append_byteOf w, hb 0 (by omega), hb 1 (by omega), hb 2 (by omega),
    hb 3 (by omega), hb 4 (by omega), hb 5 (by omega), hb 6 (by omega), hb 7 (by omega)]

/-- The bytes of a word in memory, one by one. -/
theorem byteOf_readLE64 (m : Mem) (a : Addr) {i : ℕ} (hi : i < 8) :
    byteOf (readLE64 m a) i = m (a + BitVec.ofNat 64 i) := by
  unfold byteOf readLE64
  ext j hj
  simp only [BitVec.getElem_extractLsb', BitVec.getLsbD_append]
  interval_cases i <;> grind

theorem readLE64_congr {m m' : Mem} {a a' : Addr}
    (h : ∀ i, i < 8 → m (a + BitVec.ofNat 64 i) = m' (a' + BitVec.ofNat 64 i)) :
    readLE64 m a = readLE64 m' a' := by
  unfold readLE64
  rw [h 7 (by omega), h 6 (by omega), h 5 (by omega), h 4 (by omega), h 3 (by omega),
    h 2 (by omega), h 1 (by omega), h 0 (by omega)]

theorem readLE64_eq_of_bytes {m : Mem} {a : Addr} {v : BitVec 64}
    (h : ∀ i, i < 8 → m (a + BitVec.ofNat 64 i) = byteOf v i) : readLE64 m a = v := by
  unfold readLE64
  rw [h 7 (by omega), h 6 (by omega), h 5 (by omega), h 4 (by omega), h 3 (by omega),
    h 2 (by omega), h 1 (by omega), h 0 (by omega)]
  exact append_byteOf v

/-- A word of zero bytes is zero. -/
theorem readLE64_eq_zero {m : Mem} {a : Addr}
    (h : ∀ i, i < 8 → m (a + BitVec.ofNat 64 i) = 0) : readLE64 m a = 0#64 :=
  readLE64_eq_of_bytes fun i hi => by rw [h i hi]; simp [byteOf]

/-! ### Stores -/

theorem add_ofNat_sub_toNat (a : Addr) {i : ℕ} (hi : i < 2 ^ 64) :
    (a + BitVec.ofNat 64 i - a).toNat = i := by
  rw [BitVec.add_comm, BitVec.add_sub_cancel, BitVec.toNat_ofNat, Nat.mod_eq_of_lt hi]

/-- The stored bytes themselves. -/
theorem writeBytes_inside (m : Mem) (a : Addr) {n i : ℕ} (f : ℕ → Byte) (hi : i < n)
    (hn : n ≤ 2 ^ 64) : writeBytes m a n f (a + BitVec.ofNat 64 i) = f i := by
  unfold writeBytes
  rw [add_ofNat_sub_toNat a (by omega), if_pos hi]

/-- A word reads back what was stored. -/
theorem readLE64_writeLE64_same (m : Mem) (a : Addr) (v : BitVec 64) :
    readLE64 (writeLE64 m a v) a = v :=
  readLE64_eq_of_bytes fun i hi => writeBytes_inside m a (byteOf v) hi (by omega)

theorem ofNat_sub_toNat {x a : ℕ} (hx : x < 2 ^ 64) (ha : a < 2 ^ 64) :
    (BitVec.ofNat 64 x - BitVec.ofNat 64 a).toNat = if a ≤ x then x - a else 2 ^ 64 + x - a := by
  rw [BitVec.toNat_sub, BitVec.toNat_ofNat, BitVec.toNat_ofNat, Nat.mod_eq_of_lt hx,
    Nat.mod_eq_of_lt ha]
  split <;> omega

theorem ofNat_lt_ofNat {x y : ℕ} (hx : x < 2 ^ 64) (hy : y < 2 ^ 64) :
    BitVec.ofNat 64 x < BitVec.ofNat 64 y ↔ x < y := by
  rw [BitVec.lt_def, BitVec.toNat_ofNat, BitVec.toNat_ofNat, Nat.mod_eq_of_lt hx,
    Nat.mod_eq_of_lt hy]

theorem ofNat_sub_ofNat {x y : ℕ} (h : y ≤ x) (hx : x < 2 ^ 64) :
    BitVec.ofNat 64 x - BitVec.ofNat 64 y = BitVec.ofNat 64 (x - y) := by
  apply BitVec.eq_of_toNat_eq
  rw [ofNat_sub_toNat hx (by omega), if_pos h, BitVec.toNat_ofNat, Nat.mod_eq_of_lt (by omega)]

/-- A block store at the range `[a, a + n)` of natural numbers. -/
theorem writeBytes_ofNat (m : Mem) {a n x : ℕ} (f : ℕ → Byte) (ha : a + n ≤ 2 ^ 64)
    (hx : x < 2 ^ 64) :
    writeBytes m (BitVec.ofNat 64 a) n f (BitVec.ofNat 64 x) =
      if a ≤ x ∧ x < a + n then f (x - a) else m (BitVec.ofNat 64 x) := by
  unfold writeBytes
  rcases Nat.eq_zero_or_pos n with rfl | hn
  · rw [if_neg (by omega), if_neg (by omega)]
  rw [ofNat_sub_toNat hx (by omega)]
  by_cases hin : a ≤ x ∧ x < a + n
  · rw [if_pos hin.1, if_pos (by omega), if_pos hin]
  · rw [if_neg hin, if_neg]
    split <;> omega

/-- Only the first `n` values of the stored function matter. -/
theorem writeBytes_congr (m : Mem) (a : Addr) {n : ℕ} {f g : ℕ → Byte}
    (h : ∀ i, i < n → f i = g i) : writeBytes m a n f = writeBytes m a n g := by
  funext x
  unfold writeBytes
  by_cases hx : (x - a).toNat < n
  · rw [if_pos hx, if_pos hx, h _ hx]
  · rw [if_neg hx, if_neg hx]

theorem writeBytes_zero (m : Mem) (a : Addr) (f : ℕ → Byte) : writeBytes m a 0 f = m := by
  funext x
  unfold writeBytes
  rw [if_neg (Nat.not_lt_zero _)]

/-- A block stored right after another one. -/
theorem writeBytes_append (m : Mem) (a : Addr) {k n : ℕ} (f : ℕ → Byte) (h : k + n ≤ 2 ^ 64) :
    writeBytes (writeBytes m a k f) (a + BitVec.ofNat 64 k) n (fun i => f (k + i)) =
      writeBytes m a (k + n) f := by
  funext x
  unfold writeBytes
  have hsub : x - (a + BitVec.ofNat 64 k) = x - a - BitVec.ofNat 64 k := by ring
  have hx := (x - a).isLt
  rcases Nat.eq_zero_or_pos n with rfl | hn
  · rw [if_neg (by omega), Nat.add_zero]
  rw [hsub, BitVec.toNat_sub, BitVec.toNat_ofNat, Nat.mod_eq_of_lt (show k < 2 ^ 64 by omega)]
  by_cases hlt : (x - a).toNat < k
  · rw [if_neg (by omega), if_pos hlt, if_pos (by omega)]
  · by_cases hin : (x - a).toNat < k + n
    · rw [if_pos (by omega), if_pos hin]
      exact congrArg f (by omega)
    · rw [if_neg (by omega), if_neg hlt, if_neg hin]

/-- A word outside the stored range is unchanged. -/
theorem readLE64_writeBytes_disjoint (m : Mem) {a n x : ℕ} (f : ℕ → Byte)
    (ha : a + n ≤ 2 ^ 64) (hx : x + 8 ≤ 2 ^ 64) (hd : x + 8 ≤ a ∨ a + n ≤ x) :
    readLE64 (writeBytes m (BitVec.ofNat 64 a) n f) (BitVec.ofNat 64 x) =
      readLE64 m (BitVec.ofNat 64 x) := by
  refine readLE64_congr fun i hi => ?_
  rw [← BitVec.ofNat_add, writeBytes_ofNat m f ha (by omega), if_neg (by omega)]

/-- A word inside a stored block. -/
theorem readLE64_writeBytes_inside (m : Mem) {a n o : ℕ} {f : ℕ → Byte} {v : BitVec 64}
    (ha : a + n ≤ 2 ^ 64) (ho : o + 8 ≤ n) (hf : ∀ i, i < 8 → f (o + i) = byteOf v i) :
    readLE64 (writeBytes m (BitVec.ofNat 64 a) n f) (BitVec.ofNat 64 (a + o)) = v := by
  refine readLE64_eq_of_bytes fun i hi => ?_
  rw [← BitVec.ofNat_add, writeBytes_ofNat m f ha (by omega), if_pos (by omega), ← hf i hi]
  congr 1
  omega

/-! ### Blocks -/

@[simp] theorem readBytes_length (m : Mem) (a : Addr) (n : ℕ) :
    (readBytes m a n).length = n := by
  simp [readBytes]

/-- A block followed by the next one. -/
theorem readBytes_add (m : Mem) (a : Addr) (n k : ℕ) :
    readBytes m a (n + k) = readBytes m a n ++ readBytes m (a + BitVec.ofNat 64 n) k := by
  unfold readBytes
  rw [List.range_add, List.map_append, List.map_map]
  congr 1
  refine List.map_congr_left fun i _ => ?_
  rw [Function.comp_apply, BitVec.ofNat_add, BitVec.add_assoc]

theorem readBytes_take (m : Mem) (a : Addr) {n k : ℕ} (h : k ≤ n) :
    (readBytes m a n).take k = readBytes m a k := by
  obtain ⟨d, rfl⟩ := Nat.exists_eq_add_of_le h
  rw [readBytes_add, List.take_left' (readBytes_length ..)]

/-- The bytes of a word in memory are the block it occupies. -/
theorem leBytes_readLE64 (m : Mem) (a : Addr) : leBytes (readLE64 m a) = readBytes m a 8 :=
  List.map_congr_left fun _ hi => byteOf_readLE64 m a (List.mem_range.mp hi)

theorem readBytes_congr {m m' : Mem} {a a' : Addr} {n : ℕ}
    (h : ∀ i, i < n → m (a + BitVec.ofNat 64 i) = m' (a' + BitVec.ofNat 64 i)) :
    readBytes m a n = readBytes m' a' n :=
  List.map_congr_left fun i hi => h i (List.mem_range.mp hi)

/-- A block reads back what was stored. -/
theorem readBytes_writeBytes_same (m : Mem) (a : Addr) {n : ℕ} (f : ℕ → Byte) (hn : n ≤ 2 ^ 64) :
    readBytes (writeBytes m a n f) a n = (List.range n).map f :=
  List.map_congr_left fun _ hi => writeBytes_inside m a f (List.mem_range.mp hi) hn

/-- A block outside the stored range is unchanged. -/
theorem readBytes_writeBytes_disjoint (m : Mem) {a n x k : ℕ} (f : ℕ → Byte)
    (ha : a + n ≤ 2 ^ 64) (hx : x + k ≤ 2 ^ 64) (hd : x + k ≤ a ∨ a + n ≤ x) :
    readBytes (writeBytes m (BitVec.ofNat 64 a) n f) (BitVec.ofNat 64 x) k =
      readBytes m (BitVec.ofNat 64 x) k := by
  refine List.map_congr_left fun i hi => ?_
  have hik := List.mem_range.mp hi
  rw [← BitVec.ofNat_add, writeBytes_ofNat m f ha (by omega), if_neg (by omega)]

end ByteMemory
