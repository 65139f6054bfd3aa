/-
Reports as JSON (`Report::stringfy` and `Report::fromJson`).

The JSON library is a pair of functions between texts and values; what
`stringfy` builds is an object of ASCII strings and one small integer.

* `Json`, `Json.get` — the values and accessors of `json11` that are used;
* `reportJson`, `stringfy`, `fromJson` — writing and reading a report;
* `Same` — two reports with equal fields, `data` up to its length;
* **`fromJson_stringfy`** — reading what was written gives the same report, and
  so the same results of `verify` and `checkSignaturesOnly`.
-/
import KeystoneSdk.HexStream

open ByteMemory StopM

namespace KeystoneSdk

/-! ### `json11` -/

/-- A value; of a number only what `int_value` makes of it. -/
inductive Json
  | null
  | number (intValue : BitVec 32)
  | bool (value : Bool)
  | string (value : Str)
  | array (items : List Json)
  | object (members : List (Str × Json))

namespace Json

/-- `operator[]`. -/
def get : Json → Str → Json
  | object members, key => ((members.find? (·.1 = key)).map Prod.snd).getD null
  | _, _ => null

/-- `string_value`. -/
def stringValue : Json → Str
  | string value => value
  | _ => []

/-- `int_value`. -/
def intValue : Json → BitVec 32
  | number n => n
  | _ => 0#32

/-- The escape of a character, of those that have one. -/
def escape (c : Byte) : Str :=
  if c = 92 then str "\\\\"
  else if c = 34 then str "\\\""
  else if c = 8 then str "\\b"
  else if c = 12 then str "\\f"
  else if c = 10 then str "\\n"
  else if c = 13 then str "\\r"
  else if c = 9 then str "\\t"
  else if c ≤ 0x1f then str "\\u00" ++ hexPair c
  else [c]

/-- `dump(const string &)`; the separators U+2028 and U+2029, which are not
ASCII, have escapes of their own. -/
def dumpString (s : Str) : Str := str "\"" ++ dumpChars s ++ str "\""
where
  dumpChars : Str → Str
    | 0xe2 :: 0x80 :: 0xa8 :: rest => str "\\u2028" ++ dumpChars rest
    | 0xe2 :: 0x80 :: 0xa9 :: rest => str "\\u2029" ++ dumpChars rest
    | c :: rest => escape c ++ dumpChars rest
    | [] => []

mutual

/-- `json11::dump`, for numbers that are an `int`. -/
def dump : Json → Str
  | null => str "null"
  | number n => str (toString n.toInt)
  | bool value => str (toString value)
  | string value => dumpString value
  | array items => str "[" ++ dumpItems items ++ str "]"
  | object members => str "\x7b" ++ dumpMembers members ++ str "\x7d"

def dumpItems : List Json → Str
  | [] => []
  | [item] => dump item
  | item :: rest => dump item ++ str ", " ++ dumpItems rest

def dumpMembers : List (Str × Json) → Str
  | [] => []
  | [(key, value)] => dumpString key ++ str ": " ++ dump value
  | (key, value) :: rest => dumpString key ++ str ": " ++ dump value ++ str ", " ++ dumpMembers rest

end

end Json

/-- `Json::parse`, which gives null for a text it rejects, and `Json::dump`. -/
structure Json11 where
  parse : Str → Json
  dump : Json → Str

/-! ### `report.cpp` -/

namespace Report

/-- `report.dev_public_key`. -/
def devPublicKey (r : Report) : List Byte := r.field (sizeofEnclaveReport + sizeofSmReport) publicKeySize

/-- The object `stringfy` builds; a `std::map` keeps its keys in order. -/
def reportJson (r : Report) : Json :=
  .object
    [(str "device_pubkey", .string (bytesToHex r.devPublicKey)),
      (str "enclave", .object
        [(str "data", .string (bytesToHex (r.data.take r.dataLen.toNat))),
          (str "datalen", .number (r.dataLen.setWidth 32)),
          (str "hash", .string (bytesToHex r.enclaveHash)),
          (str "signature", .string (bytesToHex r.enclaveSignature))]),
      (str "security_monitor", .object
        [(str "hash", .string (bytesToHex r.smHash)),
          (str "pubkey", .string (bytesToHex r.smPublicKey)),
          (str "signature", .string (bytesToHex r.smSignature))])]

/-- `Report::stringfy`. -/
def stringfy (r : Report) (lib : Json11) : Str :=
  if r.dataLen > BitVec.ofNat 64 attestDataMaxlen then
    str "\x7b \"error\" : \"invalid data length\" \x7d"
  else lib.dump r.reportJson

end Report

/-- `Report::fromJson`, on the report at `report`. -/
def fromJson (lib : Json11) (fuel : ℕ) (report : Addr) (jsonstr : Str) : LoadM Unit := do
  let json := lib.parse jsonstr
  let sm := json.get (str "security_monitor")
  let enclave := json.get (str "enclave")
  hexToBytes .devPublicKey report (BitVec.ofNat 64 publicKeySize)
    (json.get (str "device_pubkey")).stringValue fuel
  hexToBytes .smHash report (BitVec.ofNat 64 mdsize) (sm.get (str "hash")).stringValue fuel
  hexToBytes .smPublicKey report (BitVec.ofNat 64 publicKeySize)
    (sm.get (str "pubkey")).stringValue fuel
  hexToBytes .smSignature report (BitVec.ofNat 64 signatureSize)
    (sm.get (str "signature")).stringValue fuel
  hexToBytes .enclaveHash report (BitVec.ofNat 64 mdsize) (enclave.get (str "hash")).stringValue fuel
  -- an `int` that becomes a `uint64_t`
  storeField .dataLen (ReportField.dataLen.addr report) 8
    (byteOf ((enclave.get (str "datalen")).intValue.signExtend 64))
  let dataLen := readLE64 (← get).mem (ReportField.dataLen.addr report)
  hexToBytes .data report dataLen (enclave.get (str "data")).stringValue fuel
  hexToBytes .enclaveSignature report (BitVec.ofNat 64 signatureSize)
    (enclave.get (str "signature")).stringValue fuel

/-! ### Fields and stores -/

namespace Report

/-- The bytes of a field. -/
def get (r : Report) (f : ReportField) : List Byte := r.field f.offset f.size

/-- The field `f` ends before the field `g` starts. -/
theorem offset_disjoint {f g : ReportField} (h : f ≠ g) :
    f.offset + f.size ≤ g.offset ∨ g.offset + g.size ≤ f.offset := by
  revert h
  cases f <;> cases g <;> decide

theorem offset_add_size_le (f : ReportField) : f.offset + f.size ≤ sizeofReport := by
  cases f <;> decide

/-- A byte of a field after a store to a field. -/
theorem writeBytes_field (m : Mem) (report : Addr) {g : ReportField} {n x : ℕ} (b : ℕ → Byte)
    (hn : n ≤ g.size) (hx : x < sizeofReport) :
    writeBytes m (g.addr report) n b (report + BitVec.ofNat 64 x) =
      if g.offset ≤ x ∧ x < g.offset + n then b (x - g.offset) else m (report + BitVec.ofNat 64 x) := by
  have hg := offset_add_size_le g
  have hsize : sizeofReport = 1352 := rfl
  have hsub : report + BitVec.ofNat 64 x - g.addr report =
      BitVec.ofNat 64 x - BitVec.ofNat 64 g.offset := by
    rw [ReportField.addr]
    ring
  unfold writeBytes
  rw [hsub, ofNat_sub_toNat (by omega) (by omega)]
  by_cases hin : g.offset ≤ x ∧ x < g.offset + n
  · rw [if_pos hin.1, if_pos (by omega), if_pos hin]
  · rw [if_neg hin, if_neg]
    split <;> omega

/-- A store to one field leaves the others alone. -/
theorem get_writeBytes_ne (m : Mem) (report : Addr) {f g : ReportField} {n : ℕ} (b : ℕ → Byte)
    (hn : n ≤ g.size) (h : f ≠ g) :
    get ⟨writeBytes m (g.addr report) n b, report⟩ f = get ⟨m, report⟩ f := by
  have hdisjoint := offset_disjoint h
  have hf := offset_add_size_le f
  refine List.map_congr_left fun i hi => ?_
  have hi := List.mem_range.mp hi
  rw [BitVec.add_assoc, ← BitVec.ofNat_add]
  exact (writeBytes_field m report b hn (by omega)).trans (if_neg (by omega))

/-- A store to a field sets its first bytes. -/
theorem get_writeBytes_take (m : Mem) (report : Addr) {f : ReportField} {n : ℕ} (b : ℕ → Byte)
    (hn : n ≤ f.size) :
    (get ⟨writeBytes m (f.addr report) n b, report⟩ f).take n = (List.range n).map b := by
  have hf := offset_add_size_le f
  rw [get, field, readBytes_take _ _ hn]
  refine List.map_congr_left fun i hi => ?_
  have hi := List.mem_range.mp hi
  rw [BitVec.add_assoc, ← BitVec.ofNat_add]
  refine (writeBytes_field m report b hn (by omega)).trans ?_
  rw [if_pos (by omega), Nat.add_sub_cancel_left]

@[simp] theorem get_length (r : Report) (f : ReportField) : (r.get f).length = f.size :=
  field_length ..

/-! ### Equal reports -/

/-- The fields are equal, `data` up to `data_len`. -/
structure Same (c r : Report) : Prop where
  devPublicKey : c.devPublicKey = r.devPublicKey
  smHash : c.smHash = r.smHash
  smPublicKey : c.smPublicKey = r.smPublicKey
  smSignature : c.smSignature = r.smSignature
  enclaveHash : c.enclaveHash = r.enclaveHash
  dataLen : c.dataLen = r.dataLen
  data : c.data.take c.dataLen.toNat = r.data.take r.dataLen.toNat
  enclaveSignature : c.enclaveSignature = r.enclaveSignature

/-- What is behind the data does not matter for the signatures. -/
theorem Same.checkSignaturesOnly {c r : Report} (h : c.Same r)
    (hlen : r.dataLen.toNat ≤ attestDataMaxlen) (ed25519Verify : Ed25519Verify)
    (devPublicKey : List Byte) :
    c.checkSignaturesOnly ed25519Verify devPublicKey =
      r.checkSignaturesOnly ed25519Verify devPublicKey := by
  have hmessage : c.enclaveMessage = r.enclaveMessage := by
    rw [enclaveMessage_eq c (by rw [h.dataLen]; exact hlen), enclaveMessage_eq r hlen, h.data,
      h.enclaveHash, h.dataLen]
  rw [Report.checkSignaturesOnly, Report.checkSignaturesOnly, hmessage, smMessage_eq, smMessage_eq,
    h.smHash, h.smPublicKey, h.smSignature, h.enclaveSignature]

theorem Same.verify {c r : Report} (h : c.Same r) (hlen : r.dataLen.toNat ≤ attestDataMaxlen)
    (ed25519Verify : Ed25519Verify) (expectedEnclaveHash expectedSmHash : Fin mdsize → Byte)
    (devPublicKey : List Byte) :
    c.verify ed25519Verify expectedEnclaveHash expectedSmHash devPublicKey =
      r.verify ed25519Verify expectedEnclaveHash expectedSmHash devPublicKey := by
  rw [Report.verify, Report.verify, h.enclaveHash, h.smHash, h.checkSignaturesOnly hlen]

end Report

/-! ### The round trip -/

/-- Loading a field from the digits of its bytes. -/
theorem exec_hexToBytes_bytesToHex (f : ReportField) (report : Addr) {bytes : List Byte} {n : ℕ}
    (hlen : bytes.length = n) (hn : n ≤ attestDataMaxlen) {fuel : ℕ}
    (hfuel : attestDataMaxlen < fuel) (s : Loading) :
    exec (hexToBytes f report (BitVec.ofNat 64 n) (bytesToHex bytes) fuel) s =
      (.ok ⟨⟩, s.stored f (f.addr report) n fun i => bytes.getD i 0) := by
  have hmax : attestDataMaxlen = 1024 := rfl
  have hnat : (BitVec.ofNat 64 n).toNat = n := Nat.mod_eq_of_lt (by omega)
  have hb : ∀ i, i < (BitVec.ofNat 64 n).toNat →
      hexByte (bytesToHex bytes) (BitVec.ofNat 32 i) = some (bytes.getD i 0) := by
    intro i hi
    rw [hexByte_bytesToHex (by omega) (by omega), List.getD_eq_getElem _ _ (by omega)]
  rw [exec_hexToBytes_returns f report (by omega) hb (by omega), hnat]

/-- The state after a field was loaded from the digits of `bytes`. -/
def Loading.load (s : Loading) (report : Addr) (f : ReportField) (bytes : List Byte) : Loading :=
  s.stored f (f.addr report) bytes.length fun i => bytes.getD i 0

/-- The state after `data_len` was stored. -/
def Loading.loadLen (s : Loading) (report : Addr) (dataLen : BitVec 64) : Loading :=
  ⟨writeBytes s.mem (ReportField.dataLen.addr report) 8 (byteOf dataLen),
    s.writes ++ [(.dataLen, ReportField.dataLen.addr report, 8)]⟩

/-- The values in the object of a report. -/
theorem reportJson_get (r : Report) :
    (r.reportJson.get (str "device_pubkey")).stringValue = bytesToHex r.devPublicKey ∧
      ((r.reportJson.get (str "security_monitor")).get (str "hash")).stringValue =
        bytesToHex r.smHash ∧
      ((r.reportJson.get (str "security_monitor")).get (str "pubkey")).stringValue =
        bytesToHex r.smPublicKey ∧
      ((r.reportJson.get (str "security_monitor")).get (str "signature")).stringValue =
        bytesToHex r.smSignature ∧
      ((r.reportJson.get (str "enclave")).get (str "hash")).stringValue =
        bytesToHex r.enclaveHash ∧
      ((r.reportJson.get (str "enclave")).get (str "datalen")).intValue = r.dataLen.setWidth 32 ∧
      ((r.reportJson.get (str "enclave")).get (str "data")).stringValue =
        bytesToHex (r.data.take r.dataLen.toNat) ∧
      ((r.reportJson.get (str "enclave")).get (str "signature")).stringValue =
        bytesToHex r.enclaveSignature :=
  ⟨rfl, rfl, rfl, rfl, rfl, rfl, rfl, rfl⟩

/-- A load leaves the other fields alone. -/
theorem get_load_ne (s : Loading) (report : Addr) {f g : ReportField} {bytes : List Byte}
    (hlen : bytes.length ≤ g.size) (h : f ≠ g) :
    Report.get ⟨(s.load report g bytes).mem, report⟩ f = Report.get ⟨s.mem, report⟩ f := by
  have hmem : (s.load report g bytes).mem =
      writeBytes s.mem (g.addr report) bytes.length fun i => bytes.getD i 0 := rfl
  rw [hmem, Report.get_writeBytes_ne s.mem report _ hlen h]

/-- A loaded field starts with the bytes loaded. -/
theorem get_load_take (s : Loading) (report : Addr) {f : ReportField} {bytes : List Byte}
    (hlen : bytes.length ≤ f.size) :
    (Report.get ⟨(s.load report f bytes).mem, report⟩ f).take bytes.length = bytes := by
  rw [Loading.load, Loading.stored, Report.get_writeBytes_take _ _ _ hlen]
  exact List.ext_getElem (by simp) fun i h₁ h₂ => by
    rw [List.getElem_map, List.getElem_range, List.getD_eq_getElem _ _ h₂]

/-- A load of a whole field. -/
theorem get_load (s : Loading) (report : Addr) {f g : ReportField} {bytes : List Byte}
    (hlen : bytes.length = g.size) :
    Report.get ⟨(s.load report g bytes).mem, report⟩ f =
      if f = g then bytes else Report.get ⟨s.mem, report⟩ f := by
  by_cases hf : f = g
  · subst hf
    have htake := get_load_take s report (f := f) hlen.le
    rw [hlen, List.take_of_length_le (Report.get_length ..).le] at htake
    rw [if_pos rfl, htake]
  · rw [if_neg hf, get_load_ne s report hlen.le hf]

theorem get_loadLen (s : Loading) (report : Addr) {f : ReportField} (dataLen : BitVec 64) :
    Report.get ⟨(s.loadLen report dataLen).mem, report⟩ f =
      if f = .dataLen then leBytes dataLen else Report.get ⟨s.mem, report⟩ f := by
  by_cases hf : f = .dataLen
  · subst hf
    have htake : (Report.get ⟨(s.loadLen report dataLen).mem, report⟩ .dataLen).take 8 =
        leBytes dataLen := Report.get_writeBytes_take s.mem report _ le_rfl
    have hle : (Report.get ⟨(s.loadLen report dataLen).mem, report⟩ .dataLen).length ≤ 8 :=
      (Report.get_length ..).le
    rw [if_pos rfl, ← htake, List.take_of_length_le hle]
  · rw [if_neg hf]
    exact Report.get_writeBytes_ne s.mem report _ le_rfl hf

theorem dataLen_loadLen (s : Loading) (report : Addr) (dataLen : BitVec 64) :
    readLE64 (s.loadLen report dataLen).mem (ReportField.dataLen.addr report) = dataLen :=
  readLE64_writeLE64_same ..

/-- The state after `fromJson` read what `stringfy` wrote for `r`. -/
def Loading.loadReport (s : Loading) (report : Addr) (r : Report) : Loading :=
  let s := s.load report .devPublicKey (r.get .devPublicKey)
  let s := s.load report .smHash (r.get .smHash)
  let s := s.load report .smPublicKey (r.get .smPublicKey)
  let s := s.load report .smSignature (r.get .smSignature)
  let s := s.load report .enclaveHash (r.get .enclaveHash)
  let s := s.loadLen report r.dataLen
  let s := s.load report .data (r.data.take r.dataLen.toNat)
  s.load report .enclaveSignature (r.get .enclaveSignature)

theorem data_take_length {r : Report} (hlen : r.dataLen.toNat ≤ attestDataMaxlen) :
    (r.data.take r.dataLen.toNat).length = r.dataLen.toNat := by
  rw [List.length_take, Report.data, Report.field_length, Nat.min_eq_left hlen]

theorem exec_fromJson (lib : Json11) {fuel : ℕ} (hfuel : attestDataMaxlen < fuel) {r : Report}
    (hlen : r.dataLen.toNat ≤ attestDataMaxlen) {jsonstr : Str}
    (hparse : lib.parse jsonstr = r.reportJson) (report : Addr) (s : Loading) :
    exec (fromJson lib fuel report jsonstr) s = (.ok ⟨⟩, s.loadReport report r) := by
  obtain ⟨hkey, hsmHash, hsmKey, hsmSignature, hhash, hdataLen, hdata, hsignature⟩ :=
    reportJson_get r
  have hmax : attestDataMaxlen = 1024 := rfl
  have hint : (r.dataLen.setWidth 32).signExtend 64 = r.dataLen := by
    have hmsb : (r.dataLen.setWidth 32).msb = false := by
      rw [BitVec.msb_eq_false_iff_two_mul_lt, BitVec.toNat_setWidth]
      omega
    rw [BitVec.signExtend_eq_setWidth_of_msb_false hmsb]
    refine BitVec.eq_of_toNat_eq ?_
    rw [BitVec.toNat_setWidth, BitVec.toNat_setWidth]
    omega
  have hload : ∀ (f : ReportField) {bytes : List Byte} {n : ℕ}, bytes.length = n →
      n ≤ attestDataMaxlen → ∀ s : Loading,
        exec (hexToBytes f report (BitVec.ofNat 64 n) (bytesToHex bytes) fuel) s =
          (.ok ⟨⟩, s.load report f bytes) := by
    intro f bytes n hn hnmax s
    rw [exec_hexToBytes_bytesToHex f report hn hnmax hfuel, Loading.load, hn]
  have hdataHex : ∀ s : Loading,
      exec (hexToBytes .data report r.dataLen (bytesToHex (r.data.take r.dataLen.toNat)) fuel) s =
        (.ok ⟨⟩, s.load report .data (r.data.take r.dataLen.toNat)) := by
    intro s
    have h := hload .data (data_take_length hlen) hlen s
    rwa [BitVec.ofNat_toNat, BitVec.setWidth_eq] at h
  have hstore : ∀ s : Loading,
      exec (storeField .dataLen (ReportField.dataLen.addr report) 8 (byteOf r.dataLen)) s =
        (.ok ⟨⟩, s.loadLen report r.dataLen) := fun _ => rfl
  rw [fromJson, hparse, hkey, hsmHash, hsmKey, hsmSignature, hhash, hdataLen, hdata, hsignature, hint]
  have hlength : r.devPublicKey.length = publicKeySize ∧ r.smHash.length = mdsize ∧
      r.smPublicKey.length = publicKeySize ∧ r.smSignature.length = signatureSize ∧
      r.enclaveHash.length = mdsize ∧ r.enclaveSignature.length = signatureSize := by
    refine ⟨?_, ?_, ?_, ?_, ?_, ?_⟩ <;> exact Report.field_length ..
  obtain ⟨h1, h2, h3, h4, h5, h6⟩ := hlength
  rw [exec_bind_ok (hload .devPublicKey h1 (by decide) _), exec_bind_ok (hload .smHash h2 (by decide) _),
    exec_bind_ok (hload .smPublicKey h3 (by decide) _),
    exec_bind_ok (hload .smSignature h4 (by decide) _),
    exec_bind_ok (hload .enclaveHash h5 (by decide) _), exec_bind_ok (hstore _),
    exec_bind_ok (exec_get _)]
  -- the length is read back from the report
  show exec (hexToBytes .data report (readLE64 (Loading.loadLen _ report r.dataLen).mem _) _ fuel >>=
    fun _ => _) _ = _
  rw [dataLen_loadLen, exec_bind_ok (hdataHex _), hload .enclaveSignature h6 (by decide)]
  rfl

/-- Every field but `data` is loaded as a whole. -/
theorem get_loadReport (s : Loading) (report : Addr) (r : Report)
    (hlen : r.dataLen.toNat ≤ attestDataMaxlen) {f : ReportField} (hf : f ≠ .data) :
    Report.get ⟨(s.loadReport report r).mem, report⟩ f = r.get f := by
  have h6 : (r.data.take r.dataLen.toNat).length ≤ ReportField.data.size := by
    rw [data_take_length hlen]
    exact hlen
  rw [Loading.loadReport, get_load _ _ (r.get_length .enclaveSignature), get_load_ne _ _ h6 hf,
    get_loadLen, get_load _ _ (r.get_length .enclaveHash), get_load _ _ (r.get_length .smSignature),
    get_load _ _ (r.get_length .smPublicKey), get_load _ _ (r.get_length .smHash),
    get_load _ _ (r.get_length .devPublicKey)]
  cases f with
  | data => exact absurd rfl hf
  | dataLen => exact r.leBytes_dataLen
  | enclaveHash | enclaveSignature | smHash | smPublicKey | smSignature | devPublicKey => rfl

/-- The loaded report is the one that was written. -/
theorem same_loadReport (s : Loading) (report : Addr) (r : Report)
    (hlen : r.dataLen.toNat ≤ attestDataMaxlen) :
    Report.Same ⟨(s.loadReport report r).mem, report⟩ r := by
  have hget := fun {f : ReportField} (hf : f ≠ .data) => get_loadReport s report r hlen hf
  have hdataLen : Report.dataLen ⟨(s.loadReport report r).mem, report⟩ = r.dataLen := by
    refine leBytes_injective ?_
    rw [Report.leBytes_dataLen, Report.leBytes_dataLen]
    exact hget (f := .dataLen) (by decide)
  refine ⟨hget (f := .devPublicKey) (by decide), hget (f := .smHash) (by decide),
    hget (f := .smPublicKey) (by decide), hget (f := .smSignature) (by decide),
    hget (f := .enclaveHash) (by decide), hdataLen, ?_, hget (f := .enclaveSignature) (by decide)⟩
  have hle : (r.data.take r.dataLen.toNat).length ≤ ReportField.data.size := by
    rw [data_take_length hlen]
    exact hlen
  have hbehind : Report.data ⟨(s.loadReport report r).mem, report⟩ = _ :=
    get_load _ report (f := .data) (r.get_length .enclaveSignature)
  rw [hdataLen, hbehind, if_neg (by decide)]
  have htake : ∀ s' : Loading, (Report.get ⟨(s'.load report .data (r.data.take r.dataLen.toNat)).mem,
      report⟩ .data).take r.dataLen.toNat = r.data.take r.dataLen.toNat := by
    intro s'
    have h := get_load_take s' report hle
    rwa [data_take_length hlen] at h
  exact htake _

/-- **A report that is written and read again is the same report**: nothing is
thrown, every field comes back, whatever the object held before, and so the
verifiers agree on the two. -/
theorem fromJson_stringfy (lib : Json11) (r : Report) (hlen : r.dataLen.toNat ≤ attestDataMaxlen)
    (hparse : lib.parse (lib.dump r.reportJson) = r.reportJson) (c : Report) {fuel : ℕ}
    (hfuel : attestDataMaxlen < fuel) :
    ∃ s, exec (fromJson lib fuel c.report (r.stringfy lib)) ⟨c.mem, []⟩ = (.ok ⟨⟩, s) ∧
      Report.Same ⟨s.mem, c.report⟩ r ∧
      ∀ (ed25519Verify : Ed25519Verify) (devPublicKey : List Byte),
        Report.checkSignaturesOnly ⟨s.mem, c.report⟩ ed25519Verify devPublicKey =
            r.checkSignaturesOnly ed25519Verify devPublicKey ∧
          ∀ expectedEnclaveHash expectedSmHash : Fin mdsize → Byte,
            Report.verify ⟨s.mem, c.report⟩ ed25519Verify expectedEnclaveHash expectedSmHash
                devPublicKey =
              r.verify ed25519Verify expectedEnclaveHash expectedSmHash devPublicKey := by
  have hwritten : lib.parse (r.stringfy lib) = r.reportJson := by
    have hshort : ¬ r.dataLen > BitVec.ofNat 64 attestDataMaxlen := by
      rw [gt_iff_lt, BitVec.lt_def, BitVec.toNat_ofNat, Nat.mod_eq_of_lt (by decide)]
      omega
    rw [Report.stringfy, if_neg hshort, hparse]
  have hsame := same_loadReport ⟨c.mem, []⟩ c.report r hlen
  exact ⟨_, exec_fromJson lib hfuel hlen hwritten c.report ⟨c.mem, []⟩, hsame,
    fun ed25519Verify devPublicKey => ⟨hsame.checkSignaturesOnly hlen ed25519Verify devPublicKey,
      fun expectedEnclaveHash expectedSmHash => hsame.verify hlen ed25519Verify _ _ devPublicKey⟩⟩

/-- A report of zeros with five bytes of data. -/
def smallReport : Report := ⟨fun a => if a = 0x1040#64 then 5 else 0, 0x1000#64⟩

/-- `json11`'s serialization, and a parser for the one text it makes of `j`. -/
def json11For (j : Json) : Json11 where
  parse text := if text = j.dump then j else .null
  dump := Json.dump

theorem json11For_parse_dump (j : Json) : (json11For j).parse ((json11For j).dump j) = j :=
  if_pos rfl

theorem fromJson_stringfy_small :
    ∃ s, exec (fromJson (json11For smallReport.reportJson) 1025 0x4000#64
          (smallReport.stringfy (json11For smallReport.reportJson))) ⟨fun _ => 0xff, []⟩ =
        (.ok ⟨⟩, s) ∧ Report.Same ⟨s.mem, 0x4000#64⟩ smallReport := by
  have hlen : smallReport.dataLen.toNat ≤ attestDataMaxlen := by decide +kernel
  obtain ⟨s, hs, hsame, -⟩ := fromJson_stringfy (json11For smallReport.reportJson) smallReport hlen
    (json11For_parse_dump _) ⟨fun _ => 0xff, 0x4000#64⟩ (Nat.lt_succ_self attestDataMaxlen)
  exact ⟨s, hs, hsame⟩

end KeystoneSdk
