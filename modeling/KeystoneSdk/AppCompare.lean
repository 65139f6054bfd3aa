/-
`strlen` and `strcmp` of the enclave application library (`string.c`).

* `CString` — a NUL-terminated string in memory;
* `strlen`, `strcmp` — the two functions; the length goes through an `int`;
* `strcmp_eq` — the result is 0 or 1;
* **`strcmp_order_iff`** — for which strings the sign of the result is the
  lexicographic order.
-/
import KeystoneSdk.AppString

open ByteMemory

namespace KeystoneSdk

/-! ### The functions -/

/-- The loop of `strlen`. -/
def strlenLoop (m : Mem) : ℕ → Addr → BitVec 64 → Option (BitVec 64)
  | 0, _, _ => none
  | n + 1, str, len => if m str ≠ 0 then strlenLoop m n (str + 1#64) (len + 1#64) else some len

/-- `strlen`; `none` when its loop does not end. -/
def strlen (m : Mem) (str : Addr) : Option (BitVec 64) := strlenLoop m pointerRounds str 0#64

/-- The loop of `strcmp`, from index `i` on, with `n` rounds left. -/
def strcmpLoop (m : Mem) (s1 s2 : Addr) : ℕ → ℕ → BitVec 32
  | 0, _ => 0#32
  | n + 1, i =>
    if m (s1 + BitVec.ofNat 64 i) ≠ m (s2 + BitVec.ofNat 64 i) then 1#32
    else strcmpLoop m s1 s2 n (i + 1)

/-- `strcmp`. -/
def strcmp (m : Mem) (s1 s2 : Addr) : Option (BitVec 32) := do
  -- `int len= strlen(s1)`
  let len := (← strlen m s1).setWidth 32
  if len.signExtend 64 ≠ (← strlen m s2) then
    return 1#32
  return strcmpLoop m s1 s2 len.toInt.toNat 0

/-! ### Strings in memory -/

/-- The string `s` lies at `a`, with a NUL behind it. -/
structure CString (m : Mem) (a : Addr) (s : List Byte) : Prop where
  length_lt : s.length < 2 ^ 64
  getElem : ∀ (i : ℕ) (hi : i < s.length), m (a + BitVec.ofNat 64 i) = s[i]
  nonzero : ∀ b ∈ s, b ≠ 0
  terminated : m (a + BitVec.ofNat 64 s.length) = 0

theorem strlenLoop_eq {m : Mem} {a : Addr} {s : List Byte} (h : CString m a s) {n k : ℕ}
    (hk : k ≤ s.length) (hn : s.length - k < n) :
    strlenLoop m n (a + BitVec.ofNat 64 k) (BitVec.ofNat 64 k) =
      some (BitVec.ofNat 64 s.length) := by
  induction n generalizing k with
  | zero => omega
  | succ n ih =>
    rw [strlenLoop]
    by_cases hlt : k < s.length
    · have hbyte : m (a + BitVec.ofNat 64 k) ≠ 0 := by
        rw [h.getElem k hlt]
        exact h.nonzero _ (List.getElem_mem hlt)
      rw [if_pos hbyte, BitVec.add_assoc, ← BitVec.ofNat_add]
      exact ih hlt (by omega)
    · obtain rfl : k = s.length := by omega
      rw [if_neg (not_not.mpr h.terminated)]

theorem strlen_eq {m : Mem} {a : Addr} {s : List Byte} (h : CString m a s) :
    strlen m a = some (BitVec.ofNat 64 s.length) := by
  have hlen := h.length_lt
  have hrounds : s.length - 0 < pointerRounds := by
    unfold pointerRounds
    omega
  have hloop := strlenLoop_eq h (Nat.zero_le _) hrounds
  rwa [BitVec.add_zero] at hloop

/-- The loop finds the first difference, or none. -/
theorem strcmpLoop_eq (m : Mem) (s1 s2 : Addr) (n k : ℕ) :
    strcmpLoop m s1 s2 n k =
      if ∀ i, k ≤ i → i < k + n → m (s1 + BitVec.ofNat 64 i) = m (s2 + BitVec.ofNat 64 i) then 0#32
      else 1#32 := by
  induction n generalizing k with
  | zero =>
    rw [strcmpLoop, if_pos]
    intro i hi hi'
    omega
  | succ n ih =>
    rw [strcmpLoop, ih]
    by_cases hdiff : m (s1 + BitVec.ofNat 64 k) = m (s2 + BitVec.ofNat 64 k)
    · rw [if_neg (not_not.mpr hdiff)]
      refine if_congr ⟨fun h i hi hi' => ?_, fun h i hi hi' => h i (by omega) (by omega)⟩ rfl rfl
      rcases Nat.eq_or_lt_of_le hi with rfl | hlt
      · exact hdiff
      · exact h i hlt (by omega)
    · rw [if_pos hdiff, if_neg fun h => hdiff (h k le_rfl (by omega))]

/-! ### The result -/

/-- The number survives the conversion to `int` and back to `size_t`. -/
def FitsInt (n : ℕ) : Prop := n < 2 ^ 31 ∨ 2 ^ 64 - 2 ^ 31 ≤ n

instance : DecidablePred FitsInt := fun n =>
  inferInstanceAs (Decidable (n < 2 ^ 31 ∨ 2 ^ 64 - 2 ^ 31 ≤ n))

/-- The lengths are taken for equal, and so is what is compared: as many bytes as the
`int` counts, none if it is negative. -/
def Matches (s t : List Byte) : Prop :=
  s.length % 2 ^ 32 = t.length % 2 ^ 32 ∧ FitsInt t.length ∧ (t.length < 2 ^ 31 → t <+: s)

/-- The `int` a length becomes. -/
theorem toNat_setWidth_length {n : ℕ} (hn : n < 2 ^ 64) :
    ((BitVec.ofNat 64 n).setWidth 32).toNat = n % 2 ^ 32 := by
  rw [BitVec.toNat_setWidth, BitVec.toNat_ofNat, Nat.mod_eq_of_lt hn]

/-- When the `int` of one length equals the other length. -/
theorem signExtend_length_iff {n k : ℕ} (hn : n < 2 ^ 64) (hk : k < 2 ^ 64) :
    ((BitVec.ofNat 64 n).setWidth 32).signExtend 64 = BitVec.ofNat 64 k ↔
      n % 2 ^ 32 = k % 2 ^ 32 ∧ FitsInt k := by
  have hint := toNat_setWidth_length hn
  have hmsb : ((BitVec.ofNat 64 n).setWidth 32).msb = decide (2 ^ 31 ≤ n % 2 ^ 32) := by
    rw [BitVec.msb_eq_decide, hint]
  have hwide : ((BitVec.ofNat 64 n).setWidth 32).toNat < 2 ^ 64 := by omega
  rw [← BitVec.toNat_inj, BitVec.toNat_signExtend, BitVec.toNat_setWidth, hmsb, hint,
    BitVec.toNat_ofNat, Nat.mod_eq_of_lt hk, Nat.mod_eq_of_lt (show n % 2 ^ 32 < 2 ^ 64 by omega)]
  unfold FitsInt
  by_cases hneg : 2 ^ 31 ≤ n % 2 ^ 32
  · rw [if_pos (decide_eq_true hneg)]
    omega
  · rw [if_neg (by rw [decide_eq_true_eq]; exact hneg)]
    omega

/-- How many bytes are compared, if the lengths are taken for equal. -/
theorem toInt_length {n k : ℕ} (hn : n < 2 ^ 64) (hmod : n % 2 ^ 32 = k % 2 ^ 32)
    (hfits : FitsInt k) (hk : k < 2 ^ 64) :
    ((BitVec.ofNat 64 n).setWidth 32).toInt.toNat = if k < 2 ^ 31 then k else 0 := by
  have hint := toNat_setWidth_length hn
  unfold FitsInt at hfits
  rw [BitVec.toInt_eq_toNat_cond, hint]
  split <;> split <;> omega

/-- `strcmp` returns 0 or 1. -/
theorem strcmp_eq {m : Mem} {s1 s2 : Addr} {s t : List Byte} (hs : CString m s1 s)
    (ht : CString m s2 t) [Decidable (Matches s t)] :
    strcmp m s1 s2 = some (if Matches s t then 0#32 else 1#32) := by
  have hslen := hs.length_lt
  have htlen := ht.length_lt
  have hrun : strcmp m s1 s2 = some
      (if ((BitVec.ofNat 64 s.length).setWidth 32).signExtend 64 ≠ BitVec.ofNat 64 t.length then 1#32
      else strcmpLoop m s1 s2 ((BitVec.ofNat 64 s.length).setWidth 32).toInt.toNat 0) := by
    rw [strcmp, strlen_eq hs, strlen_eq ht, Option.bind_eq_bind, Option.bind_some]
    dsimp only
    rw [Option.bind_some]
    split
    · rfl
    · rfl
  rw [hrun]
  congr 1
  -- the first length is cut to an `int`, the second is not; the loop then runs over the first
  by_cases hlength : s.length % 2 ^ 32 = t.length % 2 ^ 32 ∧ FitsInt t.length
  · rw [if_neg (not_not.mpr ((signExtend_length_iff hslen htlen).mpr hlength)), strcmpLoop_eq,
      toInt_length hslen hlength.1 hlength.2 htlen]
    refine if_congr ?_ rfl rfl
    rw [Matches, ← and_assoc, and_iff_right hlength]
    by_cases hshort : t.length < 2 ^ 31
    · have hle : t.length ≤ s.length := by omega
      rw [if_pos hshort, imp_iff_right hshort, List.prefix_iff_getElem]
      constructor
      · intro h
        refine ⟨hle, fun i hi => ?_⟩
        rw [← hs.getElem i (by omega), ← ht.getElem i hi]
        exact (h i (Nat.zero_le i) (by omega)).symm
      · rintro ⟨_, h⟩ i _ hi
        rw [hs.getElem i (by omega), ht.getElem i (by omega)]
        exact (h i (by omega)).symm
    · rw [if_neg hshort]
      refine iff_of_true (fun i hi hi' => ?_) fun h => absurd h hshort
      omega
  · rw [if_pos fun h => hlength ((signExtend_length_iff hslen htlen).mp h), if_neg]
    exact fun h => hlength ⟨h.1, h.2.1⟩

/-! ### The order -/

/-- The sign of a result is the lexicographic order of the strings, as lists of
unsigned bytes. -/
structure IsOrder (r : BitVec 32) (s t : List Byte) : Prop where
  zero : r.toInt = 0 ↔ s = t
  negative : r.toInt < 0 ↔ s < t
  positive : 0 < r.toInt ↔ t < s

/-- **When the result is the order**: two equal strings must have a length that fits an
`int`; of two different ones the second must come first, and must not be taken for
equal. -/
theorem strcmp_order_iff (m : Mem) (s1 s2 : Addr) (s t : List Byte) (hs : CString m s1 s)
    (ht : CString m s2 t) :
    ∃ r, strcmp m s1 s2 = some r ∧
      (IsOrder r s t ↔ s = t ∧ FitsInt s.length ∨ t < s ∧ ¬ Matches s t) := by
  classical
  refine ⟨_, strcmp_eq hs ht, ?_⟩
  by_cases hmatches : Matches s t
  · rw [if_pos hmatches]
    constructor
    · intro h
      obtain rfl := h.zero.mp rfl
      exact .inl ⟨rfl, hmatches.2.1⟩
    · rintro (⟨rfl, -⟩ | ⟨-, hdiffer⟩)
      · exact ⟨iff_of_true rfl rfl, iff_of_false (by decide) (List.lt_irrefl s),
          iff_of_false (by decide) (List.lt_irrefl s)⟩
      · exact absurd hmatches hdiffer
  · rw [if_neg hmatches]
    constructor
    · intro h
      exact .inr ⟨h.positive.mp (by decide), hmatches⟩
    · rintro (⟨rfl, hfits⟩ | ⟨hlt, -⟩)
      · exact absurd ⟨rfl, hfits, fun _ => List.prefix_refl s⟩ hmatches
      · refine ⟨iff_of_false (by decide) ?_, iff_of_false (by decide) (List.lt_asymm hlt),
          iff_of_true (by decide) hlt⟩
        rintro rfl
        exact List.lt_irrefl s hlt

/-- `"a"` at 1 and `"b"` at 3. -/
def twoStrings : Mem := fun a => if a = 1#64 then 97 else if a = 3#64 then 98 else 0

theorem twoStrings_a : CString twoStrings 1#64 [97] where
  length_lt := by decide
  getElem i hi := by
    obtain rfl : i = 0 := by simpa using hi
    rfl
  nonzero := by decide
  terminated := by decide

theorem twoStrings_b : CString twoStrings 3#64 [98] where
  length_lt := by decide
  getElem i hi := by
    obtain rfl : i = 0 := by simpa using hi
    rfl
  nonzero := by decide
  terminated := by decide

/-- `"a"` is greater than `"b"`. -/
theorem strcmp_not_order :
    ∃ r, strcmp twoStrings 1#64 3#64 = some r ∧ ¬ IsOrder r [97] [98] := by
  classical
  refine ⟨_, strcmp_eq twoStrings_a twoStrings_b, fun h => ?_⟩
  have hdiffer : ¬ Matches [97] [98] := fun h => absurd (h.2.2 (by decide)) (by decide)
  rw [if_neg hdiffer] at h
  have hnegative := h.negative.mpr (by decide)
  revert hnegative
  decide

theorem strcmp_order_iff_ba :
    ∃ r, strcmp twoStrings 3#64 1#64 = some r ∧ IsOrder r [98] [97] := by
  obtain ⟨r, hr, hiff⟩ := strcmp_order_iff twoStrings 3#64 1#64 [98] [97] twoStrings_b twoStrings_a
  refine ⟨r, hr, hiff.mpr (.inr ⟨by decide, fun h => ?_⟩)⟩
  exact absurd (h.2.2 (by decide)) (by decide)

end KeystoneSdk
