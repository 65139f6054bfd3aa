/-
Hexadecimal text as reports write and read it (`report.cpp`, with the standard
library's streams and `substr`).

* `bytesToHex`, `extractHex` — two digits for each byte, and `>> std::hex` on
  the two characters of a substring;
* `hexToBytes` — the loop of `Report::HexToBytes`, whose index has 32 bits while
  the length has 64, and whose substring may start behind the end of the text;
* `exec_hexToBytes_returns`, `exec_hexToBytes_throws` — how the loop ends;
* `hexByte_bytesToHex` — what was written is read back.
-/
import KeystoneSdk.Report
import KeystoneSdk.Stopping

open ByteMemory StopM

namespace KeystoneSdk

/-- `std::string`. -/
abbrev Str := List Byte

/-- The bytes of a literal. -/
def str (s : String) : Str := s.toList.map fun c => BitVec.ofNat 8 c.toNat

/-! ### Digits -/

def hexDigit (n : ℕ) : Byte := BitVec.ofNat 8 (if n < 10 then 48 + n else 87 + n)

/-- `std::setfill('0') << std::setw(2) << std::hex` of a byte. -/
def hexPair (b : Byte) : Str := [hexDigit (b.toNat / 16), hexDigit (b.toNat % 16)]

/-- `Report::BytesToHex`, of fewer than `2 ^ 32` bytes. -/
def bytesToHex (bytes : List Byte) : Str := bytes.flatMap hexPair

def isSpace (c : Byte) : Bool := c = 32 || (9 ≤ c && c ≤ 13)

def hexValue (c : Byte) : Option ℕ :=
  if 48 ≤ c ∧ c ≤ 57 then some (c.toNat - 48)
  else if 97 ≤ c ∧ c ≤ 102 then some (c.toNat - 87)
  else if 65 ≤ c ∧ c ≤ 70 then some (c.toNat - 55)
  else none

/-- The number the leading digits of a text stand for. -/
def leadingHex (s : Str) : ℕ :=
  ((s.map hexValue).takeWhile Option.isSome).foldl (fun v d => 16 * v + d.getD 0) 0

/-- `ss >> std::hex >> data` into an `unsigned int` that was 0: blanks, a sign
and `0x` are skipped, a negative number wraps, and no digit leaves 0. -/
def extractHex (s : Str) : BitVec 32 :=
  let s := s.dropWhile isSpace
  let (negative, s) :=
    match s with
    | 45 :: rest => (true, rest)
    | 43 :: rest => (false, rest)
    | _ => (false, s)
  let s :=
    match s with
    | 48 :: 120 :: rest => rest
    | 48 :: 88 :: rest => rest
    | _ => s
  if negative then -BitVec.ofNat 32 (leadingHex s) else BitVec.ofNat 32 (leadingHex s)

/-- The byte an iteration of `HexToBytes` reads; `none` if `substr` throws.  The
position is computed in 32 bits. -/
def hexByte (hexstr : Str) (i : BitVec 32) : Option Byte :=
  let pos := (i * 2#32).toNat
  if hexstr.length < pos then none
  else some ((extractHex ((hexstr.drop pos).take 2)).setWidth 8)

/-! ### Loading -/

/-- The fields of `struct report_t`. -/
inductive ReportField
  | enclaveHash | dataLen | data | enclaveSignature
  | smHash | smPublicKey | smSignature | devPublicKey
  deriving DecidableEq

namespace ReportField

def offset : ReportField → ℕ
  | enclaveHash => 0
  | dataLen => mdsize
  | data => mdsize + 8
  | enclaveSignature => mdsize + 8 + attestDataMaxlen
  | smHash => sizeofEnclaveReport
  | smPublicKey => sizeofEnclaveReport + mdsize
  | smSignature => sizeofEnclaveReport + mdsize + publicKeySize
  | devPublicKey => sizeofEnclaveReport + sizeofSmReport

def size : ReportField → ℕ
  | enclaveHash | smHash => mdsize
  | dataLen => 8
  | data => attestDataMaxlen
  | enclaveSignature | smSignature => signatureSize
  | smPublicKey | devPublicKey => publicKeySize

/-- The address of a field in a report. -/
def addr (f : ReportField) (report : Addr) : Addr := report + BitVec.ofNat 64 f.offset

end ReportField

/-- Why a load does not come back: an exception, or more than `fuel` iterations. -/
inductive LoadStop
  | outOfRange
  | fuel
  deriving DecidableEq

/-- Memory during a load, and what was written while which field was loaded. -/
structure Loading where
  mem : Mem
  writes : List (ReportField × Addr × ℕ)

abbrev LoadM := StopM LoadStop Loading

/-- Store `n` bytes at `a` while the field `f` is loaded. -/
def storeField (f : ReportField) (a : Addr) (n : ℕ) (bytes : ℕ → Byte) : LoadM Unit :=
  modify fun s => ⟨writeBytes s.mem a n bytes, s.writes ++ [(f, a, n)]⟩

/-- The loop of `Report::HexToBytes`. -/
def hexToBytesLoop (f : ReportField) (bytes : Addr) (len : BitVec 64) (hexstr : Str) :
    ℕ → BitVec 32 → LoadM Unit
  | 0, _ => throw .fuel
  | fuel + 1, i =>
    if i.setWidth 64 < len then
      match hexByte hexstr i with
      | none => throw .outOfRange
      | some b => do
        storeField f (bytes + i.setWidth 64) 1 fun _ => b
        hexToBytesLoop f bytes len hexstr fuel (i + 1)
    else pure ()

/-- `Report::HexToBytes`. -/
def hexToBytes (f : ReportField) (report : Addr) (len : BitVec 64) (hexstr : Str) (fuel : ℕ) :
    LoadM Unit := hexToBytesLoop f (f.addr report) len hexstr fuel 0#32

/-! ### What is written is read back -/

theorem extractHex_hexPair (b : Byte) : (extractHex (hexPair b)).setWidth 8 = b := by
  revert b
  decide

@[simp] theorem bytesToHex_length (bytes : List Byte) :
    (bytesToHex bytes).length = 2 * bytes.length := by
  induction bytes with
  | nil => rfl
  | cons b rest ih =>
    rw [bytesToHex, List.flatMap_cons, List.length_append, ← bytesToHex, ih, List.length_cons]
    simp only [hexPair, List.length_cons, List.length_nil]
    omega

theorem take_drop_bytesToHex (bytes : List Byte) {i : ℕ} (hi : i < bytes.length) :
    ((bytesToHex bytes).drop (2 * i)).take 2 = hexPair bytes[i] := by
  induction bytes generalizing i with
  | nil => simp at hi
  | cons b rest ih =>
    have hcons : bytesToHex (b :: rest) = hexPair b ++ bytesToHex rest := List.flatMap_cons ..
    rw [hcons]
    cases i with
    | zero => rfl
    | succ i =>
      have hpos : 2 * (i + 1) = (hexPair b).length + 2 * i := by
        rw [show (hexPair b).length = 2 from rfl]
        omega
      rw [hpos, List.drop_length_add_append]
      exact ih (by simpa using hi)

/-- The position of an iteration, while it does not wrap. -/
theorem pos_ofNat {i : ℕ} (hi : 2 * i < 2 ^ 32) : (BitVec.ofNat 32 i * 2#32).toNat = 2 * i := by
  rw [BitVec.toNat_mul, BitVec.toNat_ofNat]
  simp only [BitVec.reduceToNat]
  omega

/-- An iteration whose position lies in the text, or at its end. -/
theorem hexByte_some {hexstr : Str} {i : ℕ} (hi : 2 * i < 2 ^ 32) (hlen : 2 * i ≤ hexstr.length) :
    hexByte hexstr (BitVec.ofNat 32 i) =
      some ((extractHex ((hexstr.drop (2 * i)).take 2)).setWidth 8) := by
  simp only [hexByte, pos_ofNat hi]
  rw [if_neg (by omega)]

theorem hexByte_none {hexstr : Str} {i : ℕ} (hi : 2 * i < 2 ^ 32) (hlen : hexstr.length < 2 * i) :
    hexByte hexstr (BitVec.ofNat 32 i) = none := by
  simp only [hexByte, pos_ofNat hi]
  rw [if_pos hlen]

/-- Every byte written is read back. -/
theorem hexByte_bytesToHex {bytes : List Byte} {i : ℕ} (hi : i < bytes.length)
    (hlen : 2 * bytes.length < 2 ^ 32) :
    hexByte (bytesToHex bytes) (BitVec.ofNat 32 i) = some bytes[i] := by
  rw [hexByte_some (by omega) (by rw [bytesToHex_length]; omega), take_drop_bytesToHex bytes hi,
    extractHex_hexPair]

/-! ### How the loop ends -/

/-- One more byte of a block. -/
theorem writeBytes_succ (m : Mem) (a : Addr) {k : ℕ} (f : ℕ → Byte) (hk : k + 1 ≤ 2 ^ 64) :
    writeBytes (writeBytes m a k f) (a + BitVec.ofNat 64 k) 1 (fun _ => f k) =
      writeBytes m a (k + 1) f := by
  rw [← writeBytes_append m a f hk]
  exact writeBytes_congr _ _ fun i hi => by rw [Nat.lt_one_iff.1 hi, Nat.add_zero]

/-- The state after `k` iterations that stored the bytes `b`. -/
def Loading.stored (s : Loading) (f : ReportField) (bytes : Addr) (k : ℕ) (b : ℕ → Byte) :
    Loading :=
  ⟨writeBytes s.mem bytes k b,
    s.writes ++ (List.range k).map fun i => (f, bytes + BitVec.ofNat 64 i, 1)⟩

theorem Loading.stored_zero (s : Loading) (f : ReportField) (bytes : Addr) (b : ℕ → Byte) :
    s.stored f bytes 0 b = s := by
  have hmem : writeBytes s.mem bytes 0 b = s.mem := funext fun _ => if_neg (Nat.not_lt_zero _)
  rw [stored, hmem, List.range_zero, List.map_nil, List.append_nil]

theorem Loading.stored_succ (s : Loading) (f : ReportField) (bytes : Addr) {k : ℕ} (b : ℕ → Byte)
    (hk : k + 1 ≤ 2 ^ 64) :
    (⟨writeBytes (s.stored f bytes k b).mem (bytes + BitVec.ofNat 64 k) 1 fun _ => b k,
        (s.stored f bytes k b).writes ++ [(f, bytes + BitVec.ofNat 64 k, 1)]⟩ : Loading) =
      s.stored f bytes (k + 1) b := by
  unfold stored
  rw [writeBytes_succ _ _ _ hk, List.range_succ, List.map_append, List.append_assoc]
  rfl

theorem exec_storeField (f : ReportField) (a : Addr) (n : ℕ) (bytes : ℕ → Byte) (s : Loading) :
    exec (storeField f a n bytes) s =
      (.ok ⟨⟩, ⟨writeBytes s.mem a n bytes, s.writes ++ [(f, a, n)]⟩) := rfl

/-- The loop runs through the iterations whose byte can be read. -/
theorem exec_loop_stored (f : ReportField) (bytes : Addr) {len : BitVec 64} {hexstr : Str}
    {b : ℕ → Byte} {k : ℕ} (hk : k < 2 ^ 32) (hlen : k ≤ len.toNat)
    (hb : ∀ i, i < k → hexByte hexstr (BitVec.ofNat 32 i) = some (b i)) (fuel : ℕ) (s : Loading) :
    exec (hexToBytesLoop f bytes len hexstr (fuel + k) 0#32) s =
      exec (hexToBytesLoop f bytes len hexstr fuel (BitVec.ofNat 32 k)) (s.stored f bytes k b) := by
  induction k generalizing fuel with
  | zero => rw [Loading.stored_zero]; rfl
  | succ k ih =>
    have hwidth : (BitVec.ofNat 32 k).setWidth 64 = BitVec.ofNat 64 k := by
      refine BitVec.eq_of_toNat_eq ?_
      rw [BitVec.toNat_setWidth, BitVec.toNat_ofNat, BitVec.toNat_ofNat]
      omega
    have hlt : (BitVec.ofNat 32 k).setWidth 64 < len := by
      rw [hwidth, BitVec.lt_def, BitVec.toNat_ofNat]
      omega
    rw [show fuel + (k + 1) = fuel + 1 + k by omega,
      ih (by omega) (by omega) (fun i hi => hb i (by omega)), hexToBytesLoop, if_pos hlt,
      hb k (by omega)]
    dsimp only
    rw [exec_bind, exec_storeField, hwidth]
    dsimp only
    rw [show BitVec.ofNat 32 k + 1 = BitVec.ofNat 32 (k + 1) from (BitVec.ofNat_add ..).symm]
    rw [Loading.stored_succ _ _ _ _ (by omega)]

/-- A loop whose bytes can all be read returns. -/
theorem exec_hexToBytes_returns (f : ReportField) (report : Addr) {len : BitVec 64} {hexstr : Str}
    {b : ℕ → Byte} (hlen : len.toNat < 2 ^ 32)
    (hb : ∀ i, i < len.toNat → hexByte hexstr (BitVec.ofNat 32 i) = some (b i)) {fuel : ℕ}
    (hfuel : len.toNat < fuel) (s : Loading) :
    exec (hexToBytes f report len hexstr fuel) s =
      (.ok ⟨⟩, s.stored f (f.addr report) len.toNat b) := by
  obtain ⟨d, rfl⟩ := Nat.exists_eq_add_of_lt hfuel
  have hend : ¬ (BitVec.ofNat 32 len.toNat).setWidth 64 < len := by
    rw [BitVec.lt_def, BitVec.toNat_setWidth, BitVec.toNat_ofNat]
    omega
  rw [hexToBytes, show len.toNat + d + 1 = d + 1 + len.toNat by omega,
    exec_loop_stored f _ hlen le_rfl hb, hexToBytesLoop, if_neg hend]
  rfl

/-- A loop that reaches a position behind the text throws. -/
theorem exec_hexToBytes_throws (f : ReportField) (report : Addr) {len : BitVec 64} {hexstr : Str}
    {b : ℕ → Byte} {k : ℕ} (hk : k < 2 ^ 32) (hlen : k < len.toNat)
    (hb : ∀ i, i < k → hexByte hexstr (BitVec.ofNat 32 i) = some (b i))
    (hnone : hexByte hexstr (BitVec.ofNat 32 k) = none) {fuel : ℕ} (hfuel : k < fuel)
    (s : Loading) :
    exec (hexToBytes f report len hexstr fuel) s =
      (.error .outOfRange, s.stored f (f.addr report) k b) := by
  obtain ⟨d, rfl⟩ := Nat.exists_eq_add_of_lt hfuel
  have hlt : (BitVec.ofNat 32 k).setWidth 64 < len := by
    rw [BitVec.lt_def, BitVec.toNat_setWidth, BitVec.toNat_ofNat]
    omega
  rw [hexToBytes, show k + d + 1 = d + 1 + k by omega, exec_loop_stored f _ hk hlen.le hb,
    hexToBytesLoop, if_pos hlt, hnone]
  rfl

/-- A load only adds to what was written. -/
def Loading.Extends (s s' : Loading) : Prop := s.writes <+: s'.writes

theorem Loading.Extends.refl (s : Loading) : s.Extends s := List.prefix_refl _

theorem Loading.Extends.trans {s s' s'' : Loading} (h : s.Extends s') (h' : s'.Extends s'') :
    s.Extends s'' := List.IsPrefix.trans h h'

theorem grows_storeField (f : ReportField) (a : Addr) (n : ℕ) (bytes : ℕ → Byte) :
    Grows Loading.Extends (storeField f a n bytes) :=
  grows_modify fun _ => List.prefix_append ..

theorem grows_hexToBytesLoop (f : ReportField) (bytes : Addr) (len : BitVec 64) (hexstr : Str)
    (fuel : ℕ) (i : BitVec 32) :
    Grows Loading.Extends (hexToBytesLoop f bytes len hexstr fuel i) := by
  induction fuel generalizing i with
  | zero => exact grows_throw Loading.Extends.refl _
  | succ fuel ih =>
    rw [hexToBytesLoop]
    split
    · rcases hexByte hexstr i with _ | b
      · exact grows_throw Loading.Extends.refl _
      · exact Grows.bind (R := Loading.Extends) (fun _ _ _ h h' => h.trans h')
          (grows_storeField _ _ _ _) fun _ => ih _
    · exact grows_pure Loading.Extends.refl _

/-- A loop whose first bytes can be read stores them, unless it is cut off. -/
theorem exec_hexToBytes_stores (f : ReportField) (report : Addr) {len : BitVec 64} {hexstr : Str}
    {b : ℕ → Byte} {k : ℕ} (hk : k < 2 ^ 32) (hlen : k ≤ len.toNat)
    (hb : ∀ i, i < k → hexByte hexstr (BitVec.ofNat 32 i) = some (b i)) (fuel : ℕ) (s : Loading) :
    (exec (hexToBytes f report len hexstr fuel) s).1 = .error .fuel ∨
      (s.stored f (f.addr report) k b).Extends (exec (hexToBytes f report len hexstr fuel) s).2 := by
  rcases Nat.lt_or_ge fuel k with hlt | hge
  · left
    have hstop : exec (hexToBytesLoop f (f.addr report) len hexstr (0 + fuel) 0#32) s = _ :=
      exec_loop_stored f _ (by omega) (by omega) (fun i hi => hb i (by omega)) 0 s
    rw [Nat.zero_add] at hstop
    rw [hexToBytes, hstop]
    rfl
  · right
    obtain ⟨d, rfl⟩ := Nat.exists_eq_add_of_le' hge
    rw [hexToBytes, exec_loop_stored f _ hk hlen hb]
    exact grows_hexToBytesLoop ..

end KeystoneSdk
