/-
`memmove` of the enclave application library (`string.c`), and what the three
memory functions store.

* `memmove` — forward or backward, byte by byte;
* `memmove_spec` — a copy between ranges that may overlap is one block store;
* **`memoryFunctions_store`** — `memset`, `memcpy` and `memmove` store what they say and
  change nothing else.
-/
import KeystoneSdk.AppString

open ByteMemory

namespace KeystoneSdk

/-! ### The function -/

/-- `while (count--) *tmp++ = *s++`. -/
def moveForward : ℕ → Addr → Addr → Mem → Mem
  | 0, _, _, m => m
  | count + 1, tmp, s, m =>
    moveForward count (tmp + 1#64) (s + 1#64) (writeBytes m tmp 1 fun _ => m s)

/-- `while (count--) *--tmp = *--s`. -/
def moveBackward : ℕ → Addr → Addr → Mem → Mem
  | 0, _, _, m => m
  | count + 1, tmp, s, m =>
    moveBackward count (tmp - 1#64) (s - 1#64) (writeBytes m (tmp - 1#64) 1 fun _ => m (s - 1#64))

/-- `memmove`. -/
def memmove (m : Mem) (dest src : Addr) (count : BitVec 64) : Mem :=
  if dest ≤ src then moveForward count.toNat dest src m
  else moveBackward count.toNat (dest + count) (src + count) m

/-! ### Overlapping ranges -/

/-- Forward the source is intact from the next byte on. -/
theorem moveForward_spec {m : Mem} {d s len : ℕ} (hd : d + len < 2 ^ 64) (hs : s + len < 2 ^ 64)
    (hle : d ≤ s) {n k : ℕ} (hn : k + n = len) :
    moveForward n (BitVec.ofNat 64 (d + k)) (BitVec.ofNat 64 (s + k)) (copied m d s k) =
      copied m d s len := by
  induction n generalizing k with
  | zero =>
    obtain rfl : k = len := by omega
    rfl
  | succ n ih =>
    have hsource : copied m d s k (BitVec.ofNat 64 (s + k)) = m (BitVec.ofNat 64 (s + k)) := by
      rw [copied, writeBytes_ofNat _ _ (by omega) (by omega), if_neg (by omega)]
    have hstep : writeBytes (copied m d s k) (BitVec.ofNat 64 (d + k)) 1
        (fun _ => copied m d s k (BitVec.ofNat 64 (s + k))) = copied m d s (k + 1) := by
      rw [hsource, ← copied_add (by omega)]
      exact writeBytes_congr _ _ fun i hi => by rw [Nat.lt_one_iff.1 hi, Nat.add_zero]
    rw [moveForward, hstep, ← BitVec.ofNat_add, ← BitVec.ofNat_add, Nat.add_assoc, Nat.add_assoc]
    exact ih (by omega)

/-- The memory when the bytes from `k` on are copied. -/
def copiedFrom (m : Mem) (d s len k : ℕ) : Mem :=
  writeBytes m (BitVec.ofNat 64 (d + k)) (len - k) fun i => m (BitVec.ofNat 64 (s + (k + i)))

/-- One byte more at the front of a block. -/
theorem copiedFrom_succ {m : Mem} {d s len k : ℕ} (hd : d + len < 2 ^ 64) (hk : k < len) :
    writeBytes (copiedFrom m d s len (k + 1)) (BitVec.ofNat 64 (d + k)) 1
        (fun _ => m (BitVec.ofNat 64 (s + k))) = copiedFrom m d s len k := by
  funext a
  obtain ⟨x, hx, rfl⟩ : ∃ x, x < 2 ^ 64 ∧ a = BitVec.ofNat 64 x :=
    ⟨a.toNat, a.isLt, by rw [BitVec.ofNat_toNat, BitVec.setWidth_eq]⟩
  rw [copiedFrom, copiedFrom, writeBytes_ofNat _ _ (by omega) hx,
    writeBytes_ofNat _ _ (by omega) hx, writeBytes_ofNat _ _ (by omega) hx]
  by_cases hfirst : x = d + k
  · subst hfirst
    rw [if_pos (by omega), if_pos (by omega), Nat.sub_self, Nat.add_zero]
  · rw [if_neg (by omega)]
    by_cases hin : d + (k + 1) ≤ x ∧ x < d + (k + 1) + (len - (k + 1))
    · rw [if_pos hin, if_pos (by omega), show k + 1 + (x - (d + (k + 1))) = k + (x - (d + k)) by omega]
    · rw [if_neg hin, if_neg (by omega)]

/-- Backward the source is intact up to the next byte. -/
theorem moveBackward_spec {m : Mem} {d s len : ℕ} (hd : d + len < 2 ^ 64) (hlt : s < d)
    {k : ℕ} (hk : k ≤ len) :
    moveBackward k (BitVec.ofNat 64 (d + k)) (BitVec.ofNat 64 (s + k)) (copiedFrom m d s len k) =
      copiedFrom m d s len 0 := by
  induction k with
  | zero => rfl
  | succ k ih =>
    have hback : ∀ x, BitVec.ofNat 64 (x + (k + 1)) - 1#64 = BitVec.ofNat 64 (x + k) := by
      intro x
      rw [← Nat.add_assoc, BitVec.ofNat_add, BitVec.add_sub_cancel]
    have hsource : copiedFrom m d s len (k + 1) (BitVec.ofNat 64 (s + k)) =
        m (BitVec.ofNat 64 (s + k)) := by
      rw [copiedFrom, writeBytes_ofNat _ _ (by omega) (by omega), if_neg (by omega)]
    rw [moveBackward, hback, hback, hsource, copiedFrom_succ hd hk]
    exact ih (by omega)

/-- **`memmove`** stores the initial content of the source, however the ranges
overlap. -/
theorem memmove_spec {m : Mem} {d s len : ℕ} (hd : d + len < 2 ^ 64) (hs : s + len < 2 ^ 64) :
    memmove m (BitVec.ofNat 64 d) (BitVec.ofNat 64 s) (BitVec.ofNat 64 len) =
      writeBytes m (BitVec.ofNat 64 d) len fun i => m (BitVec.ofNat 64 (s + i)) := by
  have hcount : (BitVec.ofNat 64 len).toNat = len := Nat.mod_eq_of_lt (by omega)
  have hle : BitVec.ofNat 64 d ≤ BitVec.ofNat 64 s ↔ d ≤ s := by
    rw [← BitVec.not_lt, ofNat_lt_ofNat (by omega) (by omega), not_lt]
  unfold memmove
  rw [hcount]
  by_cases hds : d ≤ s
  · have hzero : copied m d s 0 = m := writeBytes_zero m _ _
    have hforward := moveForward_spec (m := m) hd hs hds (n := len) (k := 0) (by omega)
    rw [hzero, Nat.add_zero, Nat.add_zero] at hforward
    rw [if_pos (hle.mpr hds), hforward]
    rfl
  · have hzero : copiedFrom m d s len len = m := by
      rw [copiedFrom, Nat.sub_self, writeBytes_zero]
    have hbackward := moveBackward_spec (m := m) hd (show s < d by omega) (le_refl len)
    rw [hzero] at hbackward
    rw [if_neg fun h => hds (hle.mp h), ← BitVec.ofNat_add, ← BitVec.ofNat_add, hbackward,
      copiedFrom, Nat.sub_zero, Nat.add_zero]
    simp only [Nat.zero_add]

/-! ### What the functions store -/

/-- The bytes `f 0, …, f (len - 1)` are stored at `dest`, and nothing else is. -/
structure BlockStored (m m' : Mem) (dest : Addr) (len : ℕ) (f : ℕ → Byte) : Prop where
  inside : ∀ i, i < len → m' (dest + BitVec.ofNat 64 i) = f i
  outside : ∀ a, (∀ i, i < len → a ≠ dest + BitVec.ofNat 64 i) → m' a = m a

theorem blockStored_writeBytes (m : Mem) (dest : Addr) {len : ℕ} (f : ℕ → Byte)
    (hlen : len ≤ 2 ^ 64) : BlockStored m (writeBytes m dest len f) dest len f := by
  constructor
  · intro i hi
    exact writeBytes_inside m dest f hi hlen
  · intro a ha
    refine if_neg fun hlt => ha _ hlt ?_
    rw [BitVec.ofNat_toNat, BitVec.setWidth_eq, BitVec.add_comm, BitVec.sub_add_cancel]

/-- **The memory functions meet their byte specification**, on ranges that do not wrap,
whatever the alignment: `memset` stores its argument modulo 256, `memcpy` and
`memmove` the initial content of the source, which for `memmove` may overlap. -/
theorem memoryFunctions_store (m : Mem) (dest : Addr) (len : BitVec 64) (hdest : 8 ≤ dest.toNat)
    (hdestEnd : dest.toNat + len.toNat < 2 ^ 64) :
    (∀ byte : BitVec 32, ∃ m', memset m dest byte len = some m' ∧
      BlockStored m m' dest len.toNat fun _ => BitVec.ofNat 8 (byte.toNat % 256)) ∧
    ∀ src : Addr, 8 ≤ src.toNat → src.toNat + len.toNat < 2 ^ 64 →
      (dest.toNat + len.toNat ≤ src.toNat ∨ src.toNat + len.toNat ≤ dest.toNat →
        ∃ m', memcpy m dest src len = some m' ∧
          BlockStored m m' dest len.toNat fun i => m (src + BitVec.ofNat 64 i)) ∧
      BlockStored m (memmove m dest src len) dest len.toNat fun i => m (src + BitVec.ofNat 64 i) := by
  have hofNat : ∀ x : BitVec 64, BitVec.ofNat 64 x.toNat = x := by
    intro x
    rw [BitVec.ofNat_toNat, BitVec.setWidth_eq]
  have hsource : ∀ (src : Addr) (i : ℕ), m (BitVec.ofNat 64 (src.toNat + i)) =
      m (src + BitVec.ofNat 64 i) := by
    intro src i
    rw [BitVec.ofNat_add, hofNat]
  have hlen : len.toNat ≤ 2 ^ 64 := len.isLt.le
  refine ⟨fun byte => ?_, fun src hsrc hsrcEnd => ⟨fun hdisj => ?_, ?_⟩⟩
  · have hset := memset_spec (m := m) byte hdestEnd
    rw [hofNat, hofNat] at hset
    have hbyte : byte.setWidth 8 = BitVec.ofNat 8 (byte.toNat % 256) := by
      refine BitVec.eq_of_toNat_eq ?_
      rw [BitVec.toNat_setWidth, BitVec.toNat_ofNat]
      omega
    rw [← hbyte]
    exact ⟨_, hset, blockStored_writeBytes m dest _ hlen⟩
  · have hcopy := memcpy_disjoint (m := m) hdestEnd hsrcEnd (by omega) hdisj
    rw [hofNat, hofNat, hofNat] at hcopy
    simp only [hsource] at hcopy
    exact ⟨_, hcopy, blockStored_writeBytes m dest _ hlen⟩
  · have hmove := memmove_spec (m := m) hdestEnd hsrcEnd
    rw [hofNat, hofNat, hofNat] at hmove
    simp only [hsource] at hmove
    rw [hmove]
    exact blockStored_writeBytes m dest _ hlen

/-- Three bytes moved up by one. -/
theorem memoryFunctions_store_overlap :
    memmove (fun a => a.setWidth 8) 0x1001#64 0x1000#64 3#64 0x1002#64 = 1 :=
  (((memoryFunctions_store (fun a => a.setWidth 8) 0x1001#64 3#64 (by decide) (by decide)).2 0x1000#64 (by decide)
    (by decide)).2.inside 1 (by decide))

end KeystoneSdk
