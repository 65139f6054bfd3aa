/-
What loading a report writes, and what reading a loaded report reads.

`Report::fromJson` takes the length of the data from the text and
`Report::fromBytes` from the bytes; neither compares it with
`ATTEST_DATA_MAXLEN`.

* `consumerReads` — what `printPretty`, `stringfy` and `verify` read;
* `SafeLoad` — a load comes back, stays inside the fields, and leaves a legal
  length (or throws);
* `hexToBytes_spec` — one field: how far it is loaded, and how that ends;
* **`load_safe_iff`** — loads are safe exactly for legal lengths, and for texts
  that throw before they leave their fields.
-/
import KeystoneSdk.ReportJson
import KeystoneSdk.AccessLog

open ByteMemory StopM AccessLog

namespace KeystoneSdk

/-! ### Consumers -/

namespace ReportField

/-- A field of a report, as a region of memory. -/
def span (f : ReportField) (report : Addr) : Span := ⟨f.addr report, f.size⟩

/-- A field read as a whole. -/
def whole (f : ReportField) (report : Addr) : Addr × ℕ := (f.addr report, f.size)

end ReportField

namespace Report

/-- The memory of a report. -/
def span (report : Addr) : Span := ⟨report, sizeofReport⟩

/-- What `BytesToHex` reads of the data; its index has 32 bits. -/
def dataHexReads (r : Report) : Addr × ℕ :=
  (ReportField.data.addr r.report, min r.dataLen.toNat (2 ^ 32))

/-- What `printPretty` reads. -/
def printPrettyReads (r : Report) : List (Addr × ℕ) :=
  [ReportField.smHash.whole r.report, ReportField.smPublicKey.whole r.report,
    ReportField.smSignature.whole r.report, ReportField.enclaveHash.whole r.report,
    ReportField.enclaveSignature.whole r.report, ReportField.dataLen.whole r.report,
    r.dataHexReads, ReportField.devPublicKey.whole r.report]

/-- What `stringfy` reads. -/
def stringfyReads (r : Report) : List (Addr × ℕ) :=
  if r.dataLen > BitVec.ofNat 64 attestDataMaxlen then [ReportField.dataLen.whole r.report]
  else
    [ReportField.dataLen.whole r.report, ReportField.devPublicKey.whole r.report,
      ReportField.smHash.whole r.report, ReportField.smPublicKey.whole r.report,
      ReportField.smSignature.whole r.report, ReportField.enclaveHash.whole r.report,
      r.dataHexReads, ReportField.enclaveSignature.whole r.report]

/-- What `checkSignaturesOnly` reads: signatures, keys, and the two messages. -/
def checkSignaturesOnlyReads (r : Report) : List (Addr × ℕ) :=
  [ReportField.smSignature.whole r.report,
    (ReportField.smHash.addr r.report, mdsize + publicKeySize),
    ReportField.enclaveSignature.whole r.report, ReportField.dataLen.whole r.report,
    (ReportField.enclaveHash.addr r.report, (BitVec.ofNat 64 (mdsize + 8) + r.dataLen).toNat),
    ReportField.smPublicKey.whole r.report]

/-- What `verify` reads. -/
def verifyReads (r : Report) : List (Addr × ℕ) :=
  ReportField.enclaveHash.whole r.report :: ReportField.smHash.whole r.report ::
    r.checkSignaturesOnlyReads

/-- What the consumers of a report read. -/
def consumerReads (r : Report) : List (Addr × ℕ) :=
  r.stringfyReads ++ r.printPrettyReads ++ r.verifyReads ++ r.checkSignaturesOnlyReads

/-- A block at an offset of the report that ends before the report does. -/
theorem span_covers (report : Addr) {o n : ℕ} (h : o + n ≤ sizeofReport) :
    (span report).Covers (report + BitVec.ofNat 64 o) n := by
  have hsize : sizeofReport = 1352 := rfl
  have hlen : (span report).len < 2 ^ 64 := by
    show sizeofReport < 2 ^ 64
    omega
  have hoffset : (span report).offset (report + BitVec.ofNat 64 o) = o :=
    Span.offset_start_add (span report) (by omega)
  rw [Span.covers_iff hlen, hoffset]
  exact .inr h

/-- With a legal data length everything that is read lies in the report. -/
theorem consumerReads_inside {r : Report} (hlen : r.dataLen.toNat ≤ attestDataMaxlen) :
    ∀ b ∈ r.consumerReads, (span r.report).Covers b.1 b.2 := by
  have hmax : attestDataMaxlen = 1024 := rfl
  have hwhole : ∀ f : ReportField, (span r.report).Covers (f.whole r.report).1 (f.whole r.report).2 :=
    fun f => span_covers r.report (offset_add_size_le f)
  have hdata : (span r.report).Covers r.dataHexReads.1 r.dataHexReads.2 := by
    refine span_covers r.report ?_
    have hdata : ReportField.data.offset + attestDataMaxlen ≤ sizeofReport :=
      offset_add_size_le .data
    have hread : r.dataHexReads.2 = min r.dataLen.toNat (2 ^ 32) := rfl
    omega
  -- the one length that the report itself states is that of the data
  have hmessage : (BitVec.ofNat 64 (mdsize + 8) + r.dataLen).toNat = mdsize + 8 + r.dataLen.toNat := by
    rw [BitVec.toNat_add, BitVec.toNat_ofNat]
    unfold mdsize
    omega
  have hsm : (span r.report).Covers (ReportField.smHash.addr r.report) (mdsize + publicKeySize) :=
    span_covers r.report (by decide)
  have henclave : (span r.report).Covers (ReportField.enclaveHash.addr r.report)
      (BitVec.ofNat 64 (mdsize + 8) + r.dataLen).toNat := by
    rw [hmessage]
    refine span_covers r.report ?_
    rw [show ReportField.enclaveHash.offset = 0 from rfl, show sizeofReport = 1352 from rfl,
      show mdsize = 64 from rfl]
    omega
  have hstringfy : ∀ b ∈ r.stringfyReads, (span r.report).Covers b.1 b.2 := by
    rw [stringfyReads]
    split
    · simp only [List.mem_singleton, forall_eq]
      exact hwhole _
    · simp only [List.forall_mem_cons, List.not_mem_nil, IsEmpty.forall_iff, implies_true, and_true]
      exact ⟨hwhole _, hwhole _, hwhole _, hwhole _, hwhole _, hwhole _, hdata, hwhole _⟩
  have hpretty : ∀ b ∈ r.printPrettyReads, (span r.report).Covers b.1 b.2 := by
    simp only [printPrettyReads, List.forall_mem_cons, List.not_mem_nil, IsEmpty.forall_iff,
      implies_true, and_true]
    exact ⟨hwhole _, hwhole _, hwhole _, hwhole _, hwhole _, hwhole _, hdata, hwhole _⟩
  have hsignatures : ∀ b ∈ r.checkSignaturesOnlyReads, (span r.report).Covers b.1 b.2 := by
    simp only [checkSignaturesOnlyReads, List.forall_mem_cons, List.not_mem_nil, IsEmpty.forall_iff,
      implies_true, and_true]
    exact ⟨hwhole _, hsm, hwhole _, hwhole _, henclave, hwhole _⟩
  intro b hb
  simp only [consumerReads, verifyReads, List.mem_append, List.mem_cons] at hb
  obtain ((hb | hb) | rfl | rfl | hb) | hb := hb
  · exact hstringfy b hb
  · exact hpretty b hb
  · exact hwhole _
  · exact hwhole _
  · exact hsignatures b hb
  · exact hsignatures b hb

end Report

/-! ### Safe loads -/

/-- A load that comes back, or throws, having stayed inside the fields, and
leaves a data length that no consumer of the report can be led astray by. -/
structure SafeLoad (report : Addr) (out : Except LoadStop Unit × Loading) : Prop where
  terminates : out.1 ≠ .error .fuel
  inside : ∀ w ∈ out.2.writes, (w.1.span report).Covers w.2.1 w.2.2
  legal : out.1 = .ok ⟨⟩ → (Report.dataLen ⟨out.2.mem, report⟩).toNat ≤ attestDataMaxlen
  consumers : out.1 = .ok ⟨⟩ → ∀ b ∈ Report.consumerReads ⟨out.2.mem, report⟩,
    (Report.span report).Covers b.1 b.2

/-- The texts loaded before the data, with the number of bytes they are for. -/
def frontTexts (json : Json) : List (ℕ × Str) :=
  [(publicKeySize, (json.get (str "device_pubkey")).stringValue),
    (mdsize, ((json.get (str "security_monitor")).get (str "hash")).stringValue),
    (publicKeySize, ((json.get (str "security_monitor")).get (str "pubkey")).stringValue),
    (signatureSize, ((json.get (str "security_monitor")).get (str "signature")).stringValue),
    (mdsize, ((json.get (str "enclave")).get (str "hash")).stringValue)]

/-- The length a text asks for. -/
def jsonDataLen (json : Json) : BitVec 64 :=
  ((json.get (str "enclave")).get (str "datalen")).intValue.signExtend 64

/-- A text for `n` bytes in which the position of the last one lies behind the
end. -/
def TooShort (n : ℕ) (text : Str) : Prop := text.length + 2 < 2 * n

instance (n : ℕ) (text : Str) : Decidable (TooShort n text) := inferInstanceAs (Decidable (_ < _))

/-- A text that throws before the data, or a legal length, or data that throws
before it leaves its field. -/
def LoadFits (json : Json) : Prop :=
  (∃ t ∈ frontTexts json, TooShort t.1 t.2) ∨
    (jsonDataLen json).toNat ≤ attestDataMaxlen ∨
    ((json.get (str "enclave")).get (str "data")).stringValue.length < 2 * attestDataMaxlen

/-! ### One field -/

theorem ReportField.size_le (f : ReportField) : f.size ≤ attestDataMaxlen := by
  cases f <;> decide

/-- What is stored in the first bytes of a field lies in the field. -/
theorem stored_inside {s : Loading} {report : Addr} (f : ReportField) {k : ℕ} (b : ℕ → Byte)
    (hk : k ≤ f.size) (hs : ∀ w ∈ s.writes, (w.1.span report).Covers w.2.1 w.2.2) :
    ∀ w ∈ (s.stored f (f.addr report) k b).writes, (w.1.span report).Covers w.2.1 w.2.2 := by
  have hmax : attestDataMaxlen = 1024 := rfl
  have hsize := f.size_le
  intro w hw
  obtain hw | hw := List.mem_append.mp hw
  · exact hs w hw
  · obtain ⟨i, hi, rfl⟩ := List.mem_map.mp hw
    have hi := List.mem_range.mp hi
    have hlen : (f.span report).len < 2 ^ 64 := by
      show f.size < 2 ^ 64
      omega
    have hoffset : (f.span report).offset (f.addr report + BitVec.ofNat 64 i) = i :=
      Span.offset_start_add (f.span report) (by omega)
    rw [Span.covers_iff hlen]
    right
    rw [hoffset]
    show i + 1 ≤ f.size
    omega

/-- A field whose length fits, or whose text ends before the field does, is
loaded up to where the text ends. -/
theorem hexToBytes_spec (f : ReportField) (report : Addr) {len : BitVec 64} {text : Str}
    (h : len.toNat ≤ f.size ∨ text.length < 2 * f.size) {fuel : ℕ} (hfuel : attestDataMaxlen < fuel)
    (s : Loading) :
    ∃ k b, k ≤ f.size ∧ exec (hexToBytes f report len text fuel) s =
      (if TooShort len.toNat text then .error .outOfRange else .ok ⟨⟩,
        s.stored f (f.addr report) k b) := by
  have hmax : attestDataMaxlen = 1024 := rfl
  have hsize := f.size_le
  set b : ℕ → Byte := fun i => (extractHex ((text.drop (2 * i)).take 2)).setWidth 8
  by_cases hshort : TooShort len.toNat text
  · -- the first position behind the end
    have hlt : text.length / 2 + 1 < len.toNat := by
      unfold TooShort at hshort
      omega
    have hk : text.length / 2 + 1 ≤ f.size := by omega
    refine ⟨text.length / 2 + 1, b, hk, ?_⟩
    rw [if_pos hshort, exec_hexToBytes_throws f report (by omega) hlt
      (fun i hi => hexByte_some (by omega) (by omega)) (hexByte_none (by omega) (by omega)) (by omega)]
  · have hle : len.toNat ≤ f.size := by
      unfold TooShort at hshort
      omega
    refine ⟨len.toNat, b, hle, ?_⟩
    have hb : ∀ i, i < len.toNat → hexByte text (BitVec.ofNat 32 i) = some (b i) := by
      intro i hi
      unfold TooShort at hshort
      exact hexByte_some (by omega) (by omega)
    rw [if_neg hshort, exec_hexToBytes_returns f report (by omega) hb (by omega)]

/-- A field of its full size, with any fuel: cut off, or loaded. -/
theorem hexToBytes_progress (f : ReportField) (report : Addr) {n : ℕ} {text : Str}
    (hn : n ≤ attestDataMaxlen) (hshort : ¬ TooShort n text) (fuel : ℕ) (s : Loading) :
    (exec (hexToBytes f report (BitVec.ofNat 64 n) text fuel) s).1 = .error .fuel ∨
      (exec (hexToBytes f report (BitVec.ofNat 64 n) text fuel) s).1 = .ok ⟨⟩ := by
  have hmax : attestDataMaxlen = 1024 := rfl
  have hnat : (BitVec.ofNat 64 n).toNat = n := Nat.mod_eq_of_lt (by omega)
  set b : ℕ → Byte := fun i => (extractHex ((text.drop (2 * i)).take 2)).setWidth 8
  have hb : ∀ i, i < n → hexByte text (BitVec.ofNat 32 i) = some (b i) := by
    intro i hi
    unfold TooShort at hshort
    exact hexByte_some (by omega) (by omega)
  rcases Nat.lt_or_ge n fuel with hlt | hge
  · right
    rw [exec_hexToBytes_returns f report (by omega) (fun i hi => hb i (by omega)) (by omega)]
  · left
    have hstop : exec (hexToBytesLoop f (f.addr report) (BitVec.ofNat 64 n) text (0 + fuel) 0#32) s =
        _ := exec_loop_stored f _ (by omega) (by omega) (fun i hi => hb i (by omega)) 0 s
    rw [Nat.zero_add] at hstop
    rw [hexToBytes, hstop]
    rfl

/-! ### All fields -/

/-- The fields loaded before the length. -/
def loadFront (json : Json) (fuel : ℕ) (report : Addr) : LoadM Unit := do
  hexToBytes .devPublicKey report (BitVec.ofNat 64 publicKeySize)
    (json.get (str "device_pubkey")).stringValue fuel
  hexToBytes .smHash report (BitVec.ofNat 64 mdsize)
    ((json.get (str "security_monitor")).get (str "hash")).stringValue fuel
  hexToBytes .smPublicKey report (BitVec.ofNat 64 publicKeySize)
    ((json.get (str "security_monitor")).get (str "pubkey")).stringValue fuel
  hexToBytes .smSignature report (BitVec.ofNat 64 signatureSize)
    ((json.get (str "security_monitor")).get (str "signature")).stringValue fuel
  hexToBytes .enclaveHash report (BitVec.ofNat 64 mdsize)
    ((json.get (str "enclave")).get (str "hash")).stringValue fuel

/-- The data, of the length that was stored, and the signature behind it. -/
def loadBack (json : Json) (fuel : ℕ) (report : Addr) (dataLen : BitVec 64) : LoadM Unit := do
  hexToBytes .data report dataLen ((json.get (str "enclave")).get (str "data")).stringValue fuel
  hexToBytes .enclaveSignature report (BitVec.ofNat 64 signatureSize)
    ((json.get (str "enclave")).get (str "signature")).stringValue fuel

/-- A load is the fields before the length, the length, and the rest. -/
theorem exec_fromJson_split (lib : Json11) (fuel : ℕ) (report : Addr) (jsonstr : Str) (s : Loading) :
    exec (fromJson lib fuel report jsonstr) s =
      match exec (loadFront (lib.parse jsonstr) fuel report) s with
      | (.error e, s') => (.error e, s')
      | (.ok _, s') =>
        exec (loadBack (lib.parse jsonstr) fuel report (jsonDataLen (lib.parse jsonstr)))
          (s'.loadLen report (jsonDataLen (lib.parse jsonstr))) := by
  have hsplit : fromJson lib fuel report jsonstr = loadFront (lib.parse jsonstr) fuel report >>=
      fun _ => (do
        storeField .dataLen (ReportField.dataLen.addr report) 8
          (byteOf (jsonDataLen (lib.parse jsonstr)))
        let dataLen := readLE64 (← get).mem (ReportField.dataLen.addr report)
        loadBack (lib.parse jsonstr) fuel report dataLen) := by
    rw [fromJson, loadFront, bind_assoc, bind_assoc, bind_assoc, bind_assoc]
    rfl
  rw [hsplit, exec_bind]
  rcases exec (loadFront (lib.parse jsonstr) fuel report) s with ⟨e | u, s'⟩
  · rfl
  · dsimp only
    have hstore : exec (storeField .dataLen (ReportField.dataLen.addr report) 8
        (byteOf (jsonDataLen (lib.parse jsonstr)))) s' =
          (.ok ⟨⟩, s'.loadLen report (jsonDataLen (lib.parse jsonstr))) := rfl
    rw [exec_bind_ok hstore, exec_bind_ok (exec_get _)]
    show exec (loadBack _ fuel report (readLE64 (Loading.loadLen s' report _).mem _)) _ = _
    rw [dataLen_loadLen]

/-- Everything written so far lies in the field it was written for. -/
def Inside (report : Addr) (s : Loading) : Prop :=
  ∀ w ∈ s.writes, (w.1.span report).Covers w.2.1 w.2.2

/-- A step that stays inside the fields, and throws exactly if `p`. -/
def Steps (report : Addr) (c : LoadM Unit) (p : Prop) : Prop :=
  ∀ s, Inside report s → ∃ s', Inside report s' ∧
    (p ∧ exec c s = (.error .outOfRange, s') ∨ ¬ p ∧ exec c s = (.ok ⟨⟩, s'))

theorem Steps.bind {report : Addr} {c c' : LoadM Unit} {p p' : Prop} (h : Steps report c p)
    (h' : Steps report c' p') : Steps report (c >>= fun _ => c') (p ∨ p') := by
  intro s hs
  obtain ⟨s₁, hs₁, ⟨hp, hrun⟩ | ⟨hp, hrun⟩⟩ := h s hs
  · exact ⟨s₁, hs₁, .inl ⟨.inl hp, exec_bind_error hrun⟩⟩
  · obtain ⟨s₂, hs₂, ⟨hp', hrun'⟩ | ⟨hp', hrun'⟩⟩ := h' s₁ hs₁
    · exact ⟨s₂, hs₂, .inl ⟨.inr hp', by rw [exec_bind_ok hrun, hrun']⟩⟩
    · exact ⟨s₂, hs₂, .inr ⟨by tauto, by rw [exec_bind_ok hrun, hrun']⟩⟩

theorem steps_hexToBytes (f : ReportField) (report : Addr) {len : BitVec 64} {text : Str}
    (h : len.toNat ≤ f.size ∨ text.length < 2 * f.size) {fuel : ℕ}
    (hfuel : attestDataMaxlen < fuel) :
    Steps report (hexToBytes f report len text fuel) (TooShort len.toNat text) := by
  intro s hs
  obtain ⟨k, b, hk, hrun⟩ := hexToBytes_spec f report h hfuel s
  refine ⟨_, stored_inside f b hk hs, ?_⟩
  by_cases hshort : TooShort len.toNat text
  · exact .inl ⟨hshort, by rw [hrun, if_pos hshort]⟩
  · exact .inr ⟨hshort, by rw [hrun, if_neg hshort]⟩

theorem steps_whole (f : ReportField) (report : Addr) {n : ℕ} (hn : n = f.size) (text : Str)
    {fuel : ℕ} (hfuel : attestDataMaxlen < fuel) :
    Steps report (hexToBytes f report (BitVec.ofNat 64 n) text fuel) (TooShort n text) := by
  have hmax : attestDataMaxlen = 1024 := rfl
  have hsize := f.size_le
  have hnat : (BitVec.ofNat 64 n).toNat = n := Nat.mod_eq_of_lt (by omega)
  have hsteps : Steps report (hexToBytes f report (BitVec.ofNat 64 n) text fuel)
      (TooShort (BitVec.ofNat 64 n).toNat text) :=
    steps_hexToBytes f report (.inl (by omega)) hfuel
  rwa [hnat] at hsteps

theorem steps_loadFront (json : Json) {fuel : ℕ} (hfuel : attestDataMaxlen < fuel)
    (report : Addr) :
    Steps report (loadFront json fuel report) (∃ t ∈ frontTexts json, TooShort t.1 t.2) := by
  have hsteps := (steps_whole .devPublicKey report rfl
      (json.get (str "device_pubkey")).stringValue hfuel).bind <|
    (steps_whole .smHash report rfl
      ((json.get (str "security_monitor")).get (str "hash")).stringValue hfuel).bind <|
    (steps_whole .smPublicKey report rfl
      ((json.get (str "security_monitor")).get (str "pubkey")).stringValue hfuel).bind <|
    (steps_whole .smSignature report rfl
      ((json.get (str "security_monitor")).get (str "signature")).stringValue hfuel).bind <|
    steps_whole .enclaveHash report rfl
      ((json.get (str "enclave")).get (str "hash")).stringValue hfuel
  intro s hs
  obtain ⟨s', hs', hout⟩ := hsteps s hs
  refine ⟨s', hs', ?_⟩
  simp only [frontTexts, List.mem_cons, List.not_mem_nil, or_false, exists_eq_or_imp,
    exists_eq_left]
  exact hout

/-- A loop that is cut off, or comes back. -/
def Progress (c : LoadM Unit) : Prop :=
  ∀ s, (exec c s).1 = .error .fuel ∨ (exec c s).1 = .ok ⟨⟩

theorem Progress.bind {c c' : LoadM Unit} (h : Progress c) (h' : Progress c') :
    Progress (c >>= fun _ => c') := by
  intro s
  rw [exec_bind]
  rcases hrun : exec c s with ⟨e | u, s'⟩
  · have := h s
    rw [hrun] at this
    obtain this | this := this
    · exact .inl this
    · cases this
  · exact h' s'

theorem progress_loadFront (json : Json) (hshort : ¬ ∃ t ∈ frontTexts json, TooShort t.1 t.2)
    (fuel : ℕ) (report : Addr) : Progress (loadFront json fuel report) := by
  simp only [frontTexts, List.mem_cons, List.not_mem_nil, or_false, exists_eq_or_imp,
    exists_eq_left, not_or] at hshort
  obtain ⟨h1, h2, h3, h4, h5⟩ := hshort
  exact Progress.bind (hexToBytes_progress _ _ (by decide) h1 fuel) <|
    Progress.bind (hexToBytes_progress _ _ (by decide) h2 fuel) <|
    Progress.bind (hexToBytes_progress _ _ (by decide) h3 fuel) <|
    Progress.bind (hexToBytes_progress _ _ (by decide) h4 fuel)
      (hexToBytes_progress _ _ (by decide) h5 fuel)

theorem get_stored_ne (s : Loading) (report : Addr) {f g : ReportField} {k : ℕ} (b : ℕ → Byte)
    (hk : k ≤ g.size) (h : f ≠ g) :
    Report.get ⟨(s.stored g (g.addr report) k b).mem, report⟩ f = Report.get ⟨s.mem, report⟩ f :=
  Report.get_writeBytes_ne s.mem report b hk h

/-- The data and the signature: thrown out, or loaded with a legal length. -/
theorem exec_loadBack (json : Json) {fuel : ℕ} (hfuel : attestDataMaxlen < fuel) (report : Addr)
    {dataLen : BitVec 64}
    (h : dataLen.toNat ≤ attestDataMaxlen ∨
      ((json.get (str "enclave")).get (str "data")).stringValue.length < 2 * attestDataMaxlen)
    {s : Loading} (hs : Inside report s) :
    ∃ s', Inside report s' ∧ (exec (loadBack json fuel report dataLen) s = (.error .outOfRange, s') ∨
      exec (loadBack json fuel report dataLen) s = (.ok ⟨⟩, s') ∧
        dataLen.toNat ≤ attestDataMaxlen ∧
        Report.get ⟨s'.mem, report⟩ .dataLen = Report.get ⟨s.mem, report⟩ .dataLen) := by
  have hmax : attestDataMaxlen = 1024 := rfl
  obtain ⟨k, b, hk, hdata⟩ := hexToBytes_spec .data report h hfuel s
  have hs₁ := @stored_inside _ report .data _ b hk hs
  by_cases hshort : TooShort dataLen.toNat ((json.get (str "enclave")).get (str "data")).stringValue
  · rw [if_pos hshort] at hdata
    exact ⟨_, hs₁, .inl (exec_bind_error hdata)⟩
  · rw [if_neg hshort] at hdata
    have hsize : (BitVec.ofNat 64 signatureSize).toNat ≤ ReportField.enclaveSignature.size := by
      decide
    obtain ⟨k', b', hk', hsignature⟩ := hexToBytes_spec .enclaveSignature report (.inl hsize) hfuel
      (s.stored .data (ReportField.data.addr report) k b)
    refine ⟨_, stored_inside .enclaveSignature b' hk' hs₁, ?_⟩
    split at hsignature
    · exact .inl (by rw [loadBack, exec_bind_ok hdata, hsignature])
    · refine .inr ⟨by rw [loadBack, exec_bind_ok hdata, hsignature], ?_, ?_⟩
      · unfold TooShort at hshort
        omega
      · rw [get_stored_ne _ _ _ hk' (by decide), get_stored_ne _ _ _ hk (by decide)]

theorem loadLen_inside {report : Addr} {s : Loading} (hs : Inside report s) (dataLen : BitVec 64) :
    Inside report (s.loadLen report dataLen) := by
  intro w hw
  obtain hw | hw := List.mem_append.mp hw
  · exact hs w hw
  · obtain rfl := List.mem_singleton.mp hw
    have hoffset : (ReportField.dataLen.span report).offset (ReportField.dataLen.addr report) = 0 := by
      show (_ - _ : BitVec 64).toNat = 0
      rw [ReportField.span, BitVec.sub_self]
      rfl
    rw [Span.covers_iff (by show (8 : ℕ) < 2 ^ 64; decide), hoffset]
    exact .inr le_rfl

theorem safeLoad_throws {report : Addr} {s : Loading} (hs : Inside report s) :
    SafeLoad report (.error .outOfRange, s) where
  terminates := nofun
  inside := hs
  legal := nofun
  consumers := nofun

theorem safeLoad_returns {report : Addr} {s : Loading} (hs : Inside report s)
    (hlen : (Report.dataLen ⟨s.mem, report⟩).toNat ≤ attestDataMaxlen) :
    SafeLoad report (.ok ⟨⟩, s) where
  terminates := nofun
  inside := hs
  legal := fun _ => hlen
  consumers := fun _ => Report.consumerReads_inside hlen

/-- Data that is too long and whose text does not end is stored behind its
field, unless the loop is cut off before. -/
theorem loadBack_unsafe (json : Json) (fuel : ℕ) (report : Addr) {dataLen : BitVec 64}
    (hlong : attestDataMaxlen < dataLen.toNat)
    (htext : 2 * attestDataMaxlen ≤ ((json.get (str "enclave")).get (str "data")).stringValue.length)
    (s : Loading) : ¬ SafeLoad report (exec (loadBack json fuel report dataLen) s) := by
  intro hsafe
  have hmax : attestDataMaxlen = 1024 := rfl
  set text := ((json.get (str "enclave")).get (str "data")).stringValue
  set rest := hexToBytes .enclaveSignature report (BitVec.ofNat 64 signatureSize)
    ((json.get (str "enclave")).get (str "signature")).stringValue fuel with hrest
  set b : ℕ → Byte := fun i => (extractHex ((text.drop (2 * i)).take 2)).setWidth 8
  have hb : ∀ i, i < attestDataMaxlen + 1 → hexByte text (BitVec.ofNat 32 i) = some (b i) :=
    fun i hi => hexByte_some (by omega) (by omega)
  have hgrows : Grows Loading.Extends rest := grows_hexToBytesLoop _ _ _ _ _ _
  have hback : exec (loadBack json fuel report dataLen) s =
      exec (hexToBytes .data report dataLen text fuel >>= fun _ => rest) s := rfl
  rw [hback] at hsafe
  obtain hcut | hstored := exec_hexToBytes_stores .data report (by omega)
    (show attestDataMaxlen + 1 ≤ dataLen.toNat by omega) hb fuel s
  · refine hsafe.terminates ?_
    rw [exec_bind]
    rcases hrun : exec (hexToBytes .data report dataLen text fuel) s with ⟨r, s'⟩
    rw [hrun] at hcut
    obtain rfl : r = .error .fuel := hcut
    rfl
  · have hout := hstored.trans (Grows.after Loading.Extends.refl _ (fun _ => hgrows) s)
    -- the first byte behind the data
    have hmem : (ReportField.data, ReportField.data.addr report + BitVec.ofNat 64 attestDataMaxlen, 1) ∈
        (s.stored .data (ReportField.data.addr report) (attestDataMaxlen + 1) b).writes :=
      List.mem_append_right _ (List.mem_map.mpr ⟨attestDataMaxlen, List.mem_range.mpr (by omega), rfl⟩)
    have hcovers : (ReportField.data.span report).Covers
        (ReportField.data.addr report + BitVec.ofNat 64 attestDataMaxlen) 1 :=
      hsafe.inside _ (hout.subset hmem)
    have hoffset : (ReportField.data.span report).offset
        (ReportField.data.addr report + BitVec.ofNat 64 attestDataMaxlen) = attestDataMaxlen :=
      Span.offset_start_add (ReportField.data.span report) (by omega)
    have hlen : (ReportField.data.span report).len = attestDataMaxlen := rfl
    rw [Span.covers_iff (by rw [hlen]; omega), hoffset, hlen] at hcovers
    omega

/-- Loading from JSON is safe exactly if the text fits. -/
theorem fromJson_safe_iff (lib : Json11) (report : Addr) (jsonstr : Str) (m : Mem) :
    (∃ fuel, SafeLoad report (exec (fromJson lib fuel report jsonstr) ⟨m, []⟩)) ↔
      LoadFits (lib.parse jsonstr) := by
  have hmax : attestDataMaxlen = 1024 := rfl
  have hnil : Inside report ⟨m, []⟩ := fun w hw => absurd hw List.not_mem_nil
  constructor
  · rintro ⟨fuel, hsafe⟩
    -- a text that does not fit gets past the fields before it, and overruns the data
    by_contra hfits
    unfold LoadFits at hfits
    push Not at hfits
    obtain ⟨hfront, hlong, htext⟩ := hfits
    have hfront := progress_loadFront (lib.parse jsonstr) (by push Not; exact hfront) fuel report
      ⟨m, []⟩
    rw [exec_fromJson_split] at hsafe
    rcases hrun : exec (loadFront (lib.parse jsonstr) fuel report) ⟨m, []⟩ with ⟨e | u, s₁⟩
    · rw [hrun] at hsafe hfront
      obtain rfl : e = .fuel := by simpa using hfront
      exact hsafe.terminates rfl
    · rw [hrun] at hsafe
      exact loadBack_unsafe (lib.parse jsonstr) fuel report hlong htext _ hsafe
  · intro hfits
    refine ⟨attestDataMaxlen + 1, ?_⟩
    have hfuel : attestDataMaxlen < attestDataMaxlen + 1 := Nat.lt_succ_self _
    rw [exec_fromJson_split]
    obtain ⟨s₁, hs₁, ⟨-, hrun⟩ | ⟨hfront, hrun⟩⟩ :=
      steps_loadFront (lib.parse jsonstr) hfuel report ⟨m, []⟩ hnil
    · rw [hrun]
      exact safeLoad_throws hs₁
    · rw [hrun]
      obtain ⟨s₂, hs₂, hback | ⟨hback, hlegal, hget⟩⟩ := exec_loadBack (lib.parse jsonstr) hfuel report
        (hfits.resolve_left hfront) (loadLen_inside hs₁ (jsonDataLen (lib.parse jsonstr)))
      · dsimp only
        rw [hback]
        exact safeLoad_throws hs₂
      · dsimp only
        rw [hback]
        refine safeLoad_returns hs₂ ?_
        have hlen : Report.dataLen ⟨s₂.mem, report⟩ = jsonDataLen (lib.parse jsonstr) := by
          refine leBytes_injective ?_
          rw [Report.leBytes_dataLen]
          refine hget.trans ?_
          rw [get_loadLen, if_pos rfl]
        rw [hlen]
        exact hlegal

/-! ### The loads -/

/-- `data_len` in the bytes of a report. -/
def binDataLen (bin : ℕ → Byte) : BitVec 64 :=
  readLE64 (fun a => bin a.toNat) (BitVec.ofNat 64 ReportField.dataLen.offset)

/-- A report loaded from bytes: only the report was written, its data length is
legal, and its consumers stay inside it. -/
structure SafeBytes (r : Report) (bin : ℕ → Byte) : Prop where
  inside : ∀ a, ¬ (Report.span r.report).Contains a → (r.fromBytes bin).mem a = r.mem a
  legal : (r.fromBytes bin).dataLen.toNat ≤ attestDataMaxlen
  consumers : ∀ b ∈ (r.fromBytes bin).consumerReads, (Report.span r.report).Covers b.1 b.2

theorem dataLen_fromBytes (r : Report) (bin : ℕ → Byte) :
    (r.fromBytes bin).dataLen = binDataLen bin := by
  refine readLE64_congr fun i hi => ?_
  have hsize : mdsize + i < sizeofReport := by
    rw [show sizeofReport = 1352 from rfl, show mdsize = 64 from rfl]
    omega
  have hindex : (BitVec.ofNat 64 ReportField.dataLen.offset + BitVec.ofNat 64 i).toNat =
      mdsize + i := by
    rw [← BitVec.ofNat_add, BitVec.toNat_ofNat]
    exact Nat.mod_eq_of_lt (hsize.trans (by decide))
  rw [BitVec.add_assoc, ← BitVec.ofNat_add, hindex]
  exact writeBytes_inside r.mem r.report bin hsize (by decide)

/-- **Loading a report is safe exactly when its length is legal**, or its text
throws before it leaves its field. -/
theorem load_safe_iff (lib : Json11) (r : Report) (jsonstr : Str) (bin : ℕ → Byte) :
    ((∃ fuel, SafeLoad r.report (exec (fromJson lib fuel r.report jsonstr) ⟨r.mem, []⟩)) ↔
        LoadFits (lib.parse jsonstr)) ∧
      (SafeBytes r bin ↔ (binDataLen bin).toNat ≤ attestDataMaxlen) := by
  refine ⟨fromJson_safe_iff lib r.report jsonstr r.mem, fun h => ?_, fun h => ?_⟩
  · rw [← dataLen_fromBytes r]
    exact h.legal
  · rw [← dataLen_fromBytes r] at h
    refine ⟨fun a ha => ?_, h, Report.consumerReads_inside h⟩
    exact if_neg ha

/-- A text that asks for no more than -1 bytes of data, and has 1025. -/
def negativeLen : Json :=
  .object
    [(str "device_pubkey", .string (List.replicate 64 48)),
      (str "enclave", .object
        [(str "data", .string (List.replicate 2050 48)),
          (str "datalen", .number (-1)),
          (str "hash", .string (List.replicate 128 48)),
          (str "signature", .string (List.replicate 128 48))]),
      (str "security_monitor", .object
        [(str "hash", .string (List.replicate 128 48)),
          (str "pubkey", .string (List.replicate 64 48)),
          (str "signature", .string (List.replicate 128 48))])]

theorem load_negativeLen :
    ¬ ∃ fuel, SafeLoad 0x1000#64 (exec (fromJson (json11For negativeLen) fuel 0x1000#64
      negativeLen.dump) ⟨fun _ => 0, []⟩) := by
  have hparse : (json11For negativeLen).parse negativeLen.dump = negativeLen :=
    json11For_parse_dump negativeLen
  rw [fromJson_safe_iff, hparse]
  rintro (⟨t, ht, hshort⟩ | hlegal | htext)
  · have hnot : ∀ t ∈ frontTexts negativeLen, ¬ TooShort t.1 t.2 := by
      decide +kernel
    exact hnot t ht hshort
  · revert hlegal
    decide +kernel
  · revert htext
    decide +kernel

end KeystoneSdk
