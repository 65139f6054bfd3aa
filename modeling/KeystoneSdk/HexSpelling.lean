/-
Which texts `Report::HexToBytes` decodes, and how it spells what it decoded
(`report.cpp`).

* `Spelled` — a text of hexadecimal digits, which `BytesToHex` gives back in lower
  case;
* `loop_ok` — a loop that returns has read a byte in every iteration;
* **`hexToBytes_spelled_iff`** — which lengths and texts decode to their own spelling:
  nothing checks that digits were read, so a text has to consist of them.
-/
import KeystoneSdk.HexStream

open ByteMemory StopM

namespace KeystoneSdk

/-! ### Spellings -/

def IsHexDigit (c : Byte) : Prop := 48 ≤ c ∧ c ≤ 57 ∨ 97 ≤ c ∧ c ≤ 102 ∨ 65 ≤ c ∧ c ≤ 70

instance : DecidablePred IsHexDigit := fun c =>
  inferInstanceAs (Decidable (48 ≤ c ∧ c ≤ 57 ∨ 97 ≤ c ∧ c ≤ 102 ∨ 65 ≤ c ∧ c ≤ 70))

/-- A letter in lower case. -/
def lowerCase (c : Byte) : Byte := if 65 ≤ c ∧ c ≤ 90 then c + 32 else c

/-- The text starts with two digits for each byte, and the bytes are written with the
same digits in lower case. -/
structure Spelled (text : Str) (bytes : List Byte) : Prop where
  length : 2 * bytes.length ≤ text.length
  digits : ∀ c ∈ text.take (2 * bytes.length), IsHexDigit c
  spelling : bytesToHex bytes = (text.take (2 * bytes.length)).map lowerCase

/-- Whenever `HexToBytes` returns, the text spells the bytes. -/
def DecodesSpelled (f : ReportField) (report : Addr) (len : BitVec 64) (text : Str) : Prop :=
  ∀ fuel s s', exec (hexToBytes f report len text fuel) s = (.ok ⟨⟩, s') →
    Spelled text (readBytes s'.mem (f.addr report) len.toNat)

/-- Two characters of a text. -/
def pairAt (text : Str) (pos : ℕ) : Str := (text.drop pos).take 2

/-- The positions of an iteration, which have 32 bits. -/
def hexPos (i : ℕ) : ℕ := 2 * i % 2 ^ 32

/-- An iteration starts behind the end of the text. -/
def SubstrThrows (len : ℕ) (text : Str) : Prop := ∃ i, i < len ∧ text.length < hexPos i

/-- The text starts with `2 * len` digits, and repeats where the positions wrap. -/
structure HexText (len : ℕ) (text : Str) : Prop where
  length : 2 * len ≤ text.length
  digits : ∀ c ∈ text.take (2 * len), IsHexDigit c
  wraps : ∀ i, i < len →
    (pairAt text (hexPos i)).map lowerCase = (pairAt text (2 * i)).map lowerCase

/-! ### Loops that return -/

theorem hexPos_eq (i : ℕ) : (BitVec.ofNat 32 i * 2#32).toNat = hexPos i := by
  rw [BitVec.toNat_mul, BitVec.toNat_ofNat, hexPos]
  simp only [BitVec.reduceToNat]
  omega

theorem hexByte_ofNat (text : Str) (i : ℕ) :
    hexByte text (BitVec.ofNat 32 i) =
      if text.length < hexPos i then none
      else some ((extractHex (pairAt text (hexPos i))).setWidth 8) := by
  rw [hexByte, hexPos_eq]
  rfl

/-- A loop longer than its index can count never returns. -/
theorem loop_not_ok (f : ReportField) (bytes : Addr) {len : BitVec 64} (text : Str)
    (hlen : 2 ^ 32 ≤ len.toNat) (fuel : ℕ) (i : BitVec 32) (s : Loading) :
    (exec (hexToBytesLoop f bytes len text fuel i) s).1 ≠ .ok ⟨⟩ := by
  induction fuel generalizing i s with
  | zero =>
    intro h
    cases h
  | succ fuel ih =>
    have hlt : i.setWidth 64 < len := by
      rw [BitVec.lt_def, BitVec.toNat_setWidth]
      omega
    rw [hexToBytesLoop, if_pos hlt]
    rcases hexByte text i with _ | b
    · intro h
      cases h
    · rw [exec_bind_ok (exec_storeField ..)]
      exact ih (i + 1) _

/-- A loop that returns had the fuel for its iterations, and none of them threw. -/
theorem loop_ok {f : ReportField} {bytes : Addr} {len : BitVec 64} {text : Str}
    (hlen : len.toNat < 2 ^ 32) {fuel k : ℕ} (hk : k ≤ len.toNat) {s s' : Loading}
    (h : exec (hexToBytesLoop f bytes len text fuel (BitVec.ofNat 32 k)) s = (.ok ⟨⟩, s')) :
    len.toNat - k < fuel ∧
      ∀ i, k ≤ i → i < len.toNat → ¬ text.length < hexPos i := by
  induction fuel generalizing k s with
  | zero => cases h
  | succ fuel ih =>
    rw [hexToBytesLoop] at h
    by_cases hlt : k < len.toNat
    · have hcond : (BitVec.ofNat 32 k).setWidth 64 < len := by
        rw [BitVec.lt_def, BitVec.toNat_setWidth, BitVec.toNat_ofNat]
        omega
      rw [if_pos hcond, hexByte_ofNat] at h
      by_cases hpos : text.length < hexPos k
      · rw [if_pos hpos] at h
        cases h
      · rw [if_neg hpos] at h
        dsimp only at h
        rw [exec_bind_ok (exec_storeField ..),
          show BitVec.ofNat 32 k + 1 = BitVec.ofNat 32 (k + 1) from (BitVec.ofNat_add ..).symm] at h
        obtain ⟨hfuel, hrest⟩ := ih (by omega) h
        refine ⟨by omega, fun i hi hi' => ?_⟩
        rcases Nat.eq_or_lt_of_le hi with rfl | hi
        · exact hpos
        · exact hrest i hi hi'
    · exact ⟨by omega, fun i hi hi' => by omega⟩

/-- What `HexToBytes` stores, if it returns. -/
def decoded (text : Str) (i : ℕ) : Byte := (extractHex (pairAt text (hexPos i))).setWidth 8

theorem exec_hexToBytes_ok {f : ReportField} {report : Addr} {len : BitVec 64} {text : Str}
    {fuel : ℕ} {s s' : Loading}
    (h : exec (hexToBytes f report len text fuel) s = (.ok ⟨⟩, s')) :
    len.toNat < 2 ^ 32 ∧ ¬ SubstrThrows len.toNat text ∧
      readBytes s'.mem (f.addr report) len.toNat = (List.range len.toNat).map (decoded text) := by
  by_cases hlen : 2 ^ 32 ≤ len.toNat
  · exact absurd (congrArg Prod.fst h) (loop_not_ok f _ text hlen fuel 0#32 s)
  · have hlen : len.toNat < 2 ^ 32 := by omega
    obtain ⟨hfuel, hpos⟩ := loop_ok (k := 0) hlen (Nat.zero_le _) h
    have hb : ∀ i, i < len.toNat → hexByte text (BitVec.ofNat 32 i) = some (decoded text i) :=
      fun i hi => by rw [hexByte_ofNat, if_neg (hpos i (Nat.zero_le i) hi), decoded]
    rw [exec_hexToBytes_returns f report hlen hb (by omega)] at h
    obtain rfl := congrArg Prod.snd h
    refine ⟨hlen, fun ⟨i, hi, hthrows⟩ => hpos i (Nat.zero_le i) hi hthrows, ?_⟩
    exact readBytes_writeBytes_same _ _ _ (by omega)

/-! ### Digits -/

/-- The digits, one by one. -/
def hexDigits : List Byte :=
  [48, 49, 50, 51, 52, 53, 54, 55, 56, 57, 97, 98, 99, 100, 101, 102, 65, 66, 67, 68, 69, 70]

theorem mem_hexDigits : ∀ c : Byte, IsHexDigit c → c ∈ hexDigits := by
  decide +kernel

/-- Two digits are read as the byte that is written as them. -/
theorem hexPair_extractHex {c d : Byte} (hc : IsHexDigit c) (hd : IsHexDigit d) :
    hexPair ((extractHex [c, d]).setWidth 8) = [lowerCase c, lowerCase d] := by
  have hall : ∀ c ∈ hexDigits, ∀ d ∈ hexDigits,
      hexPair ((extractHex [c, d]).setWidth 8) = [lowerCase c, lowerCase d] := by
    decide +kernel
  exact hall c (mem_hexDigits c hc) d (mem_hexDigits d hd)

/-- A pair of characters of a text. -/
theorem pairAt_eq {text : Str} {pos : ℕ} (h : pos + 2 ≤ text.length) :
    pairAt text pos = [text[pos], text[pos + 1]] := by
  rw [pairAt, List.drop_eq_getElem_cons (by omega), List.drop_eq_getElem_cons (by omega)]
  rfl

/-- A text as its pairs. -/
theorem take_eq_flatMap {text : Str} {n : ℕ} (h : 2 * n ≤ text.length) :
    text.take (2 * n) = (List.range n).flatMap fun i => pairAt text (2 * i) := by
  induction n with
  | zero => rfl
  | succ n ih =>
    rw [List.range_succ, List.flatMap_append, ← ih (by omega), List.flatMap_singleton, pairAt,
      show 2 * (n + 1) = 2 * n + 2 by omega, List.take_add]

/-- Lists of pairs are equal pair by pair. -/
theorem flatMap_pairs_inj {f g : ℕ → Str} {n : ℕ} (hf : ∀ i, i < n → (f i).length = 2)
    (hg : ∀ i, i < n → (g i).length = 2) :
    (List.range n).flatMap f = (List.range n).flatMap g ↔ ∀ i, i < n → f i = g i := by
  induction n with
  | zero => exact iff_of_true rfl fun i hi => absurd hi (Nat.not_lt_zero i)
  | succ n ih =>
    have hlast : (f n).length = (g n).length := by rw [hf n (by omega), hg n (by omega)]
    rw [List.range_succ, List.flatMap_append, List.flatMap_append, List.flatMap_singleton,
      List.flatMap_singleton]
    constructor
    · intro h
      obtain ⟨hrest, hn⟩ := List.append_inj' h hlast
      intro i hi
      rcases Nat.eq_or_lt_of_le (Nat.lt_succ_iff.mp hi) with rfl | hi
      · exact hn
      · exact (ih (fun i hi => hf i (by omega)) fun i hi => hg i (by omega)).mp hrest i hi
    · intro h
      rw [(ih (fun i hi => hf i (by omega)) fun i hi => hg i (by omega)).mpr
        fun i hi => h i (by omega), h n (by omega)]

/-! ### Which texts are spelled -/

/-- The bytes decoded from digits are written as the pairs they were read from. -/
theorem hexPair_decoded {text : Str} {n i : ℕ} (hlen : 2 * n ≤ text.length)
    (hdigits : ∀ c ∈ text.take (2 * n), IsHexDigit c) (hi : i < n) :
    hexPair (decoded text i) = (pairAt text (hexPos i)).map lowerCase := by
  have hpos : hexPos i + 2 ≤ 2 * n := by
    unfold hexPos
    omega
  have hdigit : ∀ j, j < 2 * n → ∀ h : j < text.length, IsHexDigit text[j] := fun j hj h =>
    hdigits _ (List.mem_take_iff_getElem.mpr ⟨j, by omega, rfl⟩)
  rw [decoded, pairAt_eq (by omega), hexPair_extractHex (hdigit _ (by omega) (by omega))
    (hdigit _ (by omega) (by omega))]
  rfl

/-- A text of digits spells what is decoded iff it repeats where the positions wrap. -/
theorem spelled_iff {text : Str} {n : ℕ} (hlen : 2 * n ≤ text.length)
    (hdigits : ∀ c ∈ text.take (2 * n), IsHexDigit c) :
    bytesToHex ((List.range n).map (decoded text)) = (text.take (2 * n)).map lowerCase ↔
      ∀ i, i < n →
        (pairAt text (hexPos i)).map lowerCase = (pairAt text (2 * i)).map lowerCase := by
  have hpair : ∀ pos, pos + 2 ≤ text.length → ((pairAt text pos).map lowerCase).length = 2 := by
    intro pos hpos
    rw [pairAt_eq hpos]
    rfl
  rw [bytesToHex, List.flatMap_map, take_eq_flatMap hlen, List.map_flatMap,
    flatMap_pairs_inj (fun i _ => rfl) fun i hi => hpair _ (by omega)]
  refine forall₂_congr fun i hi => ?_
  rw [hexPair_decoded hlen hdigits hi]

/-- **Which texts decode to their own spelling**: those too short for the loop to
return, and those that start with two hexadecimal digits for each byte (for more
than `2 ^ 31` bytes, whose positions wrap, the digits must repeat).  From `2 ^ 32`
bytes on the loop never returns. -/
theorem hexToBytes_spelled_iff (f : ReportField) (report : Addr) (len : BitVec 64) (text : Str) :
    DecodesSpelled f report len text ↔
      2 ^ 32 ≤ len.toNat ∨ SubstrThrows len.toNat text ∨ HexText len.toNat text := by
  constructor
  · intro h
    by_contra hcond
    push Not at hcond
    obtain ⟨hlen, hthrows, htext⟩ := hcond
    -- the loop returns
    have hb : ∀ i, i < len.toNat → hexByte text (BitVec.ofNat 32 i) = some (decoded text i) := by
      intro i hi
      rw [hexByte_ofNat, if_neg fun hpos => hthrows ⟨i, hi, hpos⟩, decoded]
    have hrun := exec_hexToBytes_returns f report hlen hb (Nat.lt_succ_self _) ⟨fun _ => 0, []⟩
    have hspelled := h _ _ _ hrun
    rw [(exec_hexToBytes_ok hrun).2.2] at hspelled
    obtain ⟨hlength, hdigits, hspelling⟩ := hspelled
    rw [List.length_map, List.length_range] at hlength hdigits hspelling
    exact htext ⟨hlength, hdigits, (spelled_iff hlength hdigits).mp hspelling⟩
  · intro hcond fuel s s' hrun
    obtain ⟨hlen, hthrows, hbytes⟩ := exec_hexToBytes_ok hrun
    obtain hlong | hthrow | htext := hcond
    · omega
    · exact absurd hthrow hthrows
    · obtain ⟨hlength, hdigits, hwraps⟩ := htext
      rw [hbytes]
      refine ⟨?_, ?_, ?_⟩
      · rwa [List.length_map, List.length_range]
      · rwa [List.length_map, List.length_range]
      · rw [List.length_map, List.length_range]
        exact (spelled_iff hlength hdigits).mpr hwraps

/-- `" 1"` is read as the byte 1. -/
theorem hexToBytes_skips_blank :
    ¬ DecodesSpelled .smHash 0x1000#64 1#64 (str " 1") := by
  intro h
  have hb : ∀ i, i < (1#64).toNat → hexByte (str " 1") (BitVec.ofNat 32 i) = some 1 := by
    decide
  have hrun := exec_hexToBytes_returns .smHash 0x1000#64 (by decide) hb
    (Nat.lt_succ_self _) ⟨fun _ => 0, []⟩
  have hdigits := (h _ _ _ hrun).digits 32 (by rw [readBytes_length]; decide)
  revert hdigits
  decide

end KeystoneSdk
