/-
`memcpy` and `memset` of the enclave application library (`string.c`).

* `memcpy`, `memset` — the two functions with their word and byte loops, which
  compare pointers and so may run for ever when a range wraps;
* `memcpy_disjoint` — copying between disjoint ranges is one block store;
* `memset_zero` — clearing a range is one block store of zeros;
* `memset_ends` — clearing ends whatever the range is.
-/
import KeystoneSdk.ByteMemory

open ByteMemory

namespace KeystoneSdk

/-- The rounds after which a loop that changes nothing but a pointer, which it
advances, has seen every value of the pointer: one more and it never ends. -/
def pointerRounds : ℕ := 18446744073709551616

/-! ### The functions -/

/-- The word loop of `memcpy`; the result has the two advanced pointers. -/
def copyWords : ℕ → Addr → Addr → Addr → Mem → Option (Addr × Addr × Mem)
  | 0, _, _, _, _ => none
  | n + 1, limit, d, s, m =>
    if d < limit then
      copyWords n limit (d + 8#64) (s + 8#64) (writeLE64 m d (readLE64 m s))
    else
      some (d, s, m)

/-- The byte loop of `memcpy`. -/
def copyByteLoop : ℕ → Addr → Addr → Addr → Mem → Option Mem
  | 0, _, _, _, _ => none
  | n + 1, limit, d, s, m =>
    if d < limit then
      copyByteLoop n limit (d + 1#64) (s + 1#64) (writeBytes m d 1 fun _ => m s)
    else
      some m

/-- Both are multiples of `sizeof(uintptr_t)`. -/
def wordAligned (x y : BitVec 64) : Bool := (x ||| y) &&& 7#64 == 0#64

/-- `memcpy`; `none` when a loop does not end. -/
def memcpy (m : Mem) (dest src : Addr) (len : BitVec 64) : Option Mem :=
  if wordAligned dest src then do
    let (d, s, m) ← copyWords pointerRounds (dest + len - 7#64) dest src m
    copyByteLoop pointerRounds (dest + len) d s m
  else
    copyByteLoop pointerRounds (dest + len) dest src m

/-- The word loop of `memset`. -/
def setWords : ℕ → Addr → Addr → BitVec 64 → Mem → Option Mem
  | 0, _, _, _, _ => none
  | n + 1, limit, d, word, m =>
    if d < limit then setWords n limit (d + 8#64) word (writeLE64 m d word) else some m

/-- The byte loop of `memset`. -/
def setBytes : ℕ → Addr → Addr → Byte → Mem → Option Mem
  | 0, _, _, _, _ => none
  | n + 1, limit, d, byte, m =>
    if d < limit then setBytes n limit (d + 1#64) byte (writeBytes m d 1 fun _ => byte) else some m

/-- A word of eight equal bytes, as `memset` builds it. -/
def repeatByte (byte : BitVec 32) : BitVec 64 :=
  let word := (byte &&& 0xFF#32).setWidth 64
  let word := word ||| (word <<< 8)
  let word := word ||| (word <<< 16)
  word ||| ((word <<< 16) <<< 16)

/-- `memset`; `none` when its loop does not end. -/
def memset (m : Mem) (dest : Addr) (byte : BitVec 32) (len : BitVec 64) : Option Mem :=
  if wordAligned dest len then
    setWords pointerRounds (dest + len) dest (repeatByte byte) m
  else
    setBytes pointerRounds (dest + len) dest (byte.setWidth 8) m

/-! ### Copying -/

/-- The memory after the first `k` bytes of a copy. -/
def copied (m : Mem) (d s k : ℕ) : Mem :=
  writeBytes m (BitVec.ofNat 64 d) k fun i => m (BitVec.ofNat 64 (s + i))

/-- The source is still intact where it has not been overwritten. -/
theorem copied_source {m : Mem} {d s k len i : ℕ} (hd : d + len < 2 ^ 64)
    (hs : s + len < 2 ^ 64) (hk : k ≤ len) (hi : i < len)
    (hdisj : d + len ≤ s ∨ s + len ≤ d) :
    copied m d s k (BitVec.ofNat 64 (s + i)) = m (BitVec.ofNat 64 (s + i)) := by
  unfold copied
  rw [writeBytes_ofNat _ _ (by omega) (by omega), if_neg (by omega)]

theorem copied_add {m : Mem} {d s k n : ℕ} (h : k + n ≤ 2 ^ 64) :
    writeBytes (copied m d s k) (BitVec.ofNat 64 (d + k)) n
        (fun i => m (BitVec.ofNat 64 (s + (k + i)))) =
      copied m d s (k + n) := by
  unfold copied
  rw [BitVec.ofNat_add]
  exact writeBytes_append m _ (fun i => m (BitVec.ofNat 64 (s + i))) h

/-- The byte loop copies all that is left. -/
theorem copyByteLoop_spec {m : Mem} {d s len : ℕ} (hd : d + len < 2 ^ 64) (hs : s + len < 2 ^ 64)
    (hdisj : d + len ≤ s ∨ s + len ≤ d) {n k : ℕ} (hk : k ≤ len) (hn : len - k < n) :
    copyByteLoop n (BitVec.ofNat 64 (d + len)) (BitVec.ofNat 64 (d + k)) (BitVec.ofNat 64 (s + k))
      (copied m d s k) = some (copied m d s len) := by
  induction n generalizing k with
  | zero => omega
  | succ n ih =>
    have hcond := ofNat_lt_ofNat (show d + k < 2 ^ 64 by omega) hd
    unfold copyByteLoop
    by_cases hlt : k < len
    · have hstep : writeBytes (copied m d s k) (BitVec.ofNat 64 (d + k)) 1
          (fun _ => copied m d s k (BitVec.ofNat 64 (s + k))) = copied m d s (k + 1) := by
        rw [copied_source hd hs hk hlt hdisj, ← copied_add (by omega)]
        exact writeBytes_congr _ _ fun i hi => by rw [Nat.lt_one_iff.1 hi, Nat.add_zero]
      rw [if_pos (hcond.2 (by omega)), hstep, ← BitVec.ofNat_add, ← BitVec.ofNat_add, Nat.add_assoc,
        Nat.add_assoc]
      exact ih hlt (by omega)
    · obtain rfl : k = len := by omega
      rw [if_neg fun h => Nat.lt_irrefl _ (hcond.1 h)]

/-- The word loop copies whole words while eight bytes are left. -/
theorem copyWords_spec {m : Mem} {d s len : ℕ} (hd : d + len < 2 ^ 64) (hs : s + len < 2 ^ 64)
    (hd7 : 7 ≤ d) (hdisj : d + len ≤ s ∨ s + len ≤ d) {n k : ℕ} (hk : k ≤ len) (hn : len - k < n) :
    ∃ k', k' ≤ len ∧
      copyWords n (BitVec.ofNat 64 (d + len - 7)) (BitVec.ofNat 64 (d + k))
        (BitVec.ofNat 64 (s + k)) (copied m d s k) =
        some (BitVec.ofNat 64 (d + k'), BitVec.ofNat 64 (s + k'), copied m d s k') := by
  induction n generalizing k with
  | zero => omega
  | succ n ih =>
    have hcond := ofNat_lt_ofNat (show d + k < 2 ^ 64 by omega) (show d + len - 7 < 2 ^ 64 by omega)
    unfold copyWords
    by_cases hlt : d + k < d + len - 7
    · have hstep : writeLE64 (copied m d s k) (BitVec.ofNat 64 (d + k))
          (readLE64 (copied m d s k) (BitVec.ofNat 64 (s + k))) = copied m d s (k + 8) := by
        have hread : readLE64 (copied m d s k) (BitVec.ofNat 64 (s + k)) =
            readLE64 m (BitVec.ofNat 64 (s + k)) :=
          readLE64_congr fun i hi => by
            rw [← BitVec.ofNat_add, Nat.add_assoc]
            exact copied_source hd hs hk (by omega) hdisj
        rw [hread, ← copied_add (by omega)]
        exact writeBytes_congr _ _ fun i hi => by
          rw [byteOf_readLE64 m _ hi, ← BitVec.ofNat_add, Nat.add_assoc]
      rw [if_pos (hcond.2 hlt), hstep, ← BitVec.ofNat_add, ← BitVec.ofNat_add, Nat.add_assoc, Nat.add_assoc]
      exact ih (by omega) (by omega)
    · rw [if_neg fun h => hlt (hcond.1 h)]
      exact ⟨k, hk, rfl⟩

/-- **`memcpy` between disjoint ranges** stores the source block at the
destination. -/
theorem memcpy_disjoint {m : Mem} {d s len : ℕ} (hd : d + len < 2 ^ 64) (hs : s + len < 2 ^ 64)
    (hd7 : 7 ≤ d) (hdisj : d + len ≤ s ∨ s + len ≤ d) :
    memcpy m (BitVec.ofNat 64 d) (BitVec.ofNat 64 s) (BitVec.ofNat 64 len) =
      some (writeBytes m (BitVec.ofNat 64 d) len fun i => m (BitVec.ofNat 64 (s + i))) := by
  have hzero : copied m d s 0 = m := writeBytes_zero m _ _
  have hbytes : ∀ k, k ≤ len → copyByteLoop pointerRounds (BitVec.ofNat 64 (d + len))
      (BitVec.ofNat 64 (d + k)) (BitVec.ofNat 64 (s + k)) (copied m d s k) =
        some (copied m d s len) :=
    fun k hk => copyByteLoop_spec hd hs hdisj hk (by unfold pointerRounds; omega)
  unfold memcpy
  rw [← BitVec.ofNat_add]
  split
  · have hlimit : BitVec.ofNat 64 (d + len) - 7#64 = BitVec.ofNat 64 (d + len - 7) :=
      ofNat_sub_ofNat (by omega) hd
    obtain ⟨k, hk, hwords⟩ := copyWords_spec (m := m) hd hs hd7 hdisj (Nat.zero_le len)
      (show len - 0 < pointerRounds by unfold pointerRounds; omega)
    rw [hzero, Nat.add_zero, Nat.add_zero] at hwords
    rw [hlimit, hwords]
    exact hbytes k hk
  · have h := hbytes 0 (Nat.zero_le len)
    rwa [hzero, Nat.add_zero, Nat.add_zero] at h

/-! ### Clearing -/

theorem setBytes_spec {m : Mem} {d len : ℕ} {b : Byte} (hd : d + len < 2 ^ 64) {n k : ℕ}
    (hk : k ≤ len) (hn : len - k < n) :
    setBytes n (BitVec.ofNat 64 (d + len)) (BitVec.ofNat 64 (d + k)) b
        (writeBytes m (BitVec.ofNat 64 d) k fun _ => b) =
      some (writeBytes m (BitVec.ofNat 64 d) len fun _ => b) := by
  induction n generalizing k with
  | zero => omega
  | succ n ih =>
    have hcond := ofNat_lt_ofNat (show d + k < 2 ^ 64 by omega) hd
    unfold setBytes
    by_cases hlt : k < len
    · have hstep := writeBytes_append m (BitVec.ofNat 64 d) (fun _ => b)
        (show k + 1 ≤ 2 ^ 64 by omega)
      rw [← BitVec.ofNat_add] at hstep
      rw [if_pos (hcond.2 (by omega)), hstep, ← BitVec.ofNat_add, Nat.add_assoc]
      exact ih hlt (by omega)
    · obtain rfl : k = len := by omega
      rw [if_neg fun h => Nat.lt_irrefl _ (hcond.1 h)]

theorem setWords_spec {m : Mem} {d len : ℕ} {b : Byte} {word : BitVec 64}
    (hword : ∀ i, i < 8 → byteOf word i = b) (hd : d + len < 2 ^ 64) (hlen : len % 8 = 0) {n k : ℕ}
    (hk : k ≤ len) (hk8 : k % 8 = 0) (hn : len - k < n) :
    setWords n (BitVec.ofNat 64 (d + len)) (BitVec.ofNat 64 (d + k)) word
        (writeBytes m (BitVec.ofNat 64 d) k fun _ => b) =
      some (writeBytes m (BitVec.ofNat 64 d) len fun _ => b) := by
  induction n generalizing k with
  | zero => omega
  | succ n ih =>
    have hcond := ofNat_lt_ofNat (show d + k < 2 ^ 64 by omega) hd
    unfold setWords
    by_cases hlt : k < len
    · have hstep := writeBytes_append m (BitVec.ofNat 64 d) (fun _ => b)
        (show k + 8 ≤ 2 ^ 64 by omega)
      rw [← BitVec.ofNat_add] at hstep
      rw [if_pos (hcond.2 (by omega)), writeLE64, writeBytes_congr _ _ hword, hstep,
        ← BitVec.ofNat_add, Nat.add_assoc]
      exact ih (by omega) (by omega) (by omega)
    · obtain rfl : k = len := by omega
      rw [if_neg fun h => Nat.lt_irrefl _ (hcond.1 h)]

theorem wordAligned_words {x y : BitVec 64} (h : wordAligned x y = true) :
    x.toNat % 8 = 0 ∧ y.toNat % 8 = 0 := by
  have hbits := congrArg BitVec.toNat (beq_iff_eq.1 h)
  rw [BitVec.toNat_and, BitVec.toNat_or] at hbits
  have hmod : (x.toNat ||| y.toNat) % 8 = 0 := by
    rw [show 8 = 2 ^ 3 from rfl, ← Nat.and_two_pow_sub_one_eq_mod]
    exact hbits
  rw [show 8 = 2 ^ 3 from rfl, Nat.or_mod_two_pow, Nat.or_eq_zero_iff] at hmod
  exact hmod

/-- Only the low byte of the argument matters. -/
theorem repeatByte_setWidth (byte : BitVec 32) :
    repeatByte byte = repeatByte ((byte.setWidth 8).setWidth 32) := by
  have hlow : byte &&& 0xFF#32 = (byte.setWidth 8).setWidth 32 &&& 0xFF#32 := by
    refine BitVec.eq_of_toNat_eq ?_
    rw [BitVec.toNat_and, BitVec.toNat_and, show (0xFF#32).toNat = 2 ^ 8 - 1 from rfl,
      Nat.and_two_pow_sub_one_eq_mod, Nat.and_two_pow_sub_one_eq_mod, BitVec.toNat_setWidth,
      BitVec.toNat_setWidth]
    omega
  unfold repeatByte
  rw [hlow]

/-- The shifts repeat the low byte. -/
theorem byteOf_repeatByte (byte : BitVec 32) :
    ∀ i, i < 8 → byteOf (repeatByte byte) i = byte.setWidth 8 := by
  have hbytes : ∀ b : BitVec 8, ∀ i, i < 8 → byteOf (repeatByte (b.setWidth 32)) i = b := by
    decide +kernel
  rw [repeatByte_setWidth]
  exact hbytes _

/-- **`memset`** stores the low byte of its argument throughout the range. -/
theorem memset_spec {m : Mem} {d len : ℕ} (byte : BitVec 32) (hd : d + len < 2 ^ 64) :
    memset m (BitVec.ofNat 64 d) byte (BitVec.ofNat 64 len) =
      some (writeBytes m (BitVec.ofNat 64 d) len fun _ => byte.setWidth 8) := by
  have hzero : writeBytes m (BitVec.ofNat 64 d) 0 (fun _ => byte.setWidth 8) = m :=
    writeBytes_zero m _ _
  have hrounds : len - 0 < pointerRounds := by
    unfold pointerRounds
    omega
  unfold memset
  rw [← BitVec.ofNat_add]
  split
  · next haligned =>
    have hlen := (wordAligned_words haligned).2
    rw [BitVec.toNat_ofNat, Nat.mod_eq_of_lt (show len < 2 ^ 64 by omega)] at hlen
    have h := setWords_spec (m := m) (byteOf_repeatByte byte) hd hlen (Nat.zero_le len) rfl hrounds
    rwa [hzero, Nat.add_zero] at h
  · have h := setBytes_spec (m := m) (b := byte.setWidth 8) hd (Nat.zero_le len) hrounds
    rwa [hzero, Nat.add_zero] at h

/-- **`memset` with zero** clears the range. -/
theorem memset_zero {m : Mem} {d len : ℕ} (hd : d + len < 2 ^ 64) :
    memset m (BitVec.ofNat 64 d) 0#32 (BitVec.ofNat 64 len) =
      some (writeBytes m (BitVec.ofNat 64 d) len fun _ => 0) := memset_spec 0#32 hd

/-! ### `memset` always ends -/

theorem setBytes_ends {n : ℕ} {limit d : Addr} (b : Byte) (m : Mem)
    (hn : limit.toNat - d.toNat < n) : ∃ m', setBytes n limit d b m = some m' := by
  induction n generalizing d m with
  | zero => omega
  | succ n ih =>
    unfold setBytes
    by_cases hlt : d < limit
    · have hnat := BitVec.lt_def.1 hlt
      have hnext : (d + 1#64).toNat = d.toNat + 1 := by
        rw [BitVec.toNat_add]
        exact Nat.mod_eq_of_lt (by have := limit.isLt; show d.toNat + 1 < _; omega)
      rw [if_pos hlt]
      exact ih _ (by omega)
    · rw [if_neg hlt]
      exact ⟨m, rfl⟩

theorem setWords_ends {n : ℕ} {limit d : Addr} (w : BitVec 64) (m : Mem) (hd : d.toNat % 8 = 0)
    (hlimit : limit.toNat % 8 = 0) (hn : limit.toNat - d.toNat < n) :
    ∃ m', setWords n limit d w m = some m' := by
  induction n generalizing d m with
  | zero => omega
  | succ n ih =>
    unfold setWords
    by_cases hlt : d < limit
    · -- whole words are left, so the pointer does not jump over the limit
      have hnat := BitVec.lt_def.1 hlt
      have hnext : (d + 8#64).toNat = d.toNat + 8 := by
        rw [BitVec.toNat_add]
        exact Nat.mod_eq_of_lt (by have := limit.isLt; show d.toNat + 8 < _; omega)
      rw [if_pos hlt]
      exact ih _ (by omega) (by omega)
    · rw [if_neg hlt]
      exact ⟨m, rfl⟩

/-- `memset` ends also when its range wraps: it then stores nothing. -/
theorem memset_ends (m : Mem) (dest : Addr) (byte : BitVec 32) (len : BitVec 64) :
    ∃ m', memset m dest byte len = some m' := by
  have hlimit := (dest + len).isLt
  have hrounds : (dest + len).toNat - dest.toNat < pointerRounds := by
    unfold pointerRounds
    omega
  unfold memset
  split
  · next haligned =>
    obtain ⟨hdest, hlen⟩ := wordAligned_words haligned
    refine setWords_ends _ m hdest ?_ hrounds
    rw [BitVec.toNat_add]
    omega
  · exact setBytes_ends _ m hrounds

end KeystoneSdk
