/-
Attestation reports (`verifier/report.h`, `verifier/report.cpp`).

A `Report` object is a place in memory that holds a `struct report_t`; what
lies behind it is memory like any other, which is what a message length taken
from the report can reach.  The signature scheme is an arbitrary predicate of
a key, a signature and the bytes of a message.

* `Report.verify_iff` — when a report is accepted;
* `enclaveMessage_eq` — the signed message, for a legal data length;
* **`verify_binds_iff`** — an accepted report binds its whole body exactly if
  its data length is legal (or the expected hashes reject it already).
-/
import KeystoneSdk.HostCommon

open ByteMemory

namespace KeystoneSdk

def mdsize : ℕ := 64
def signatureSize : ℕ := 64
def publicKeySize : ℕ := 32
def attestDataMaxlen : ℕ := 1024

/-- `sizeof(struct enclave_report_t)`. -/
def sizeofEnclaveReport : ℕ := mdsize + 8 + attestDataMaxlen + signatureSize

/-- `sizeof(struct sm_report_t)`. -/
def sizeofSmReport : ℕ := mdsize + publicKeySize + signatureSize

/-- `sizeof(struct report_t)`. -/
def sizeofReport : ℕ := sizeofEnclaveReport + sizeofSmReport + publicKeySize

/-- A `Report` object: the memory, and the address of its `report`. -/
structure Report where
  mem : Mem
  report : Addr

/-- `ed25519_verify(signature, message, message_len, public_key)`: the bytes
of the key, of the signature and of the message decide. -/
abbrev Ed25519Verify := List Byte → List Byte → List Byte → Bool

namespace Report

/-- The `n` bytes at offset `o` of the report. -/
def field (r : Report) (o n : ℕ) : List Byte := readBytes r.mem (r.report + BitVec.ofNat 64 o) n

/-! ### `struct report_t` -/

/-- `report.enclave.hash`. -/
def enclaveHash (r : Report) : List Byte := r.field 0 mdsize

/-- `report.enclave.data_len`. -/
def dataLen (r : Report) : BitVec 64 := readLE64 r.mem (r.report + BitVec.ofNat 64 mdsize)

/-- `report.enclave.data`. -/
def data (r : Report) : List Byte := r.field (mdsize + 8) attestDataMaxlen

/-- `report.enclave.signature`. -/
def enclaveSignature (r : Report) : List Byte :=
  r.field (mdsize + 8 + attestDataMaxlen) signatureSize

/-- `report.sm.hash`. -/
def smHash (r : Report) : List Byte := r.field sizeofEnclaveReport mdsize

/-- `report.sm.public_key`. -/
def smPublicKey (r : Report) : List Byte := r.field (sizeofEnclaveReport + mdsize) publicKeySize

/-- `report.sm.signature`. -/
def smSignature (r : Report) : List Byte :=
  r.field (sizeofEnclaveReport + mdsize + publicKeySize) signatureSize

/-! ### `report.cpp` -/

/-- `Report::fromBytes`. -/
def fromBytes (r : Report) (bin : ℕ → Byte) : Report :=
  { r with mem := writeBytes r.mem r.report sizeofReport bin }

/-- The message `checkSignaturesOnly` has checked for the monitor. -/
def smMessage (r : Report) : List Byte := r.field sizeofEnclaveReport (mdsize + publicKeySize)

/-- The message `checkSignaturesOnly` has checked for the enclave: the length
is a 64-bit sum. -/
def enclaveMessage (r : Report) : List Byte :=
  r.field 0 (BitVec.ofNat 64 (mdsize + 8) + r.dataLen).toNat

/-- `Report::checkSignaturesOnly`. -/
def checkSignaturesOnly (r : Report) (ed25519Verify : Ed25519Verify)
    (devPublicKey : List Byte) : Bool :=
  let smValid := ed25519Verify devPublicKey r.smSignature r.smMessage
  let enclaveValid := ed25519Verify r.smPublicKey r.enclaveSignature r.enclaveMessage
  smValid && enclaveValid

/-- `Report::verify`; the hashes are compared over `MDSIZE` bytes. -/
def verify (r : Report) (ed25519Verify : Ed25519Verify)
    (expectedEnclaveHash expectedSmHash : Fin mdsize → Byte) (devPublicKey : List Byte) : Bool :=
  let enclHashValid := List.ofFn expectedEnclaveHash == r.enclaveHash
  let smHashValid := List.ofFn expectedSmHash == r.smHash
  let signatureValid := r.checkSignaturesOnly ed25519Verify devPublicKey
  enclHashValid && smHashValid && signatureValid

/-! ### What the fields hold -/

@[simp] theorem field_length (r : Report) (o n : ℕ) : (r.field o n).length = n :=
  readBytes_length ..

/-- A field followed by the next one. -/
theorem field_add (r : Report) (o n k : ℕ) :
    r.field o (n + k) = r.field o n ++ r.field (o + n) k := by
  rw [field, field, field, readBytes_add, BitVec.add_assoc, ← BitVec.ofNat_add]

/-- The bytes of the length are part of the report. -/
theorem leBytes_dataLen (r : Report) : leBytes r.dataLen = r.field mdsize 8 := leBytes_readLE64 ..

theorem verify_iff (r : Report) (ed25519Verify : Ed25519Verify)
    (expectedEnclaveHash expectedSmHash : Fin mdsize → Byte) (devPublicKey : List Byte) :
    r.verify ed25519Verify expectedEnclaveHash expectedSmHash devPublicKey = true ↔
      List.ofFn expectedEnclaveHash = r.enclaveHash ∧ List.ofFn expectedSmHash = r.smHash ∧
        ed25519Verify devPublicKey r.smSignature r.smMessage = true ∧
        ed25519Verify r.smPublicKey r.enclaveSignature r.enclaveMessage = true := by
  simp [verify, checkSignaturesOnly, and_assoc]

/-! ### Messages -/

theorem smMessage_eq (r : Report) : r.smMessage = r.smHash ++ r.smPublicKey := field_add ..

/-- For a legal data length the message is the whole body of the report. -/
theorem enclaveMessage_eq (r : Report) (h : r.dataLen.toNat ≤ attestDataMaxlen) :
    r.enclaveMessage =
      r.enclaveHash ++ leBytes r.dataLen ++ r.data.take r.dataLen.toNat := by
  have hlen : (BitVec.ofNat 64 (mdsize + 8) + r.dataLen).toNat =
      mdsize + 8 + r.dataLen.toNat := by
    rw [BitVec.toNat_add, BitVec.toNat_ofNat]
    simp only [mdsize, attestDataMaxlen] at *
    omega
  have hdata : r.data.take r.dataLen.toNat = r.field (mdsize + 8) r.dataLen.toNat :=
    readBytes_take _ _ h
  rw [enclaveMessage, hlen, field_add, field_add, Nat.zero_add, Nat.zero_add, leBytes_dataLen,
    hdata, enclaveHash]

/-- The length of the message determines the data length, wrapping or not. -/
theorem dataLen_of_message {r r' : Report} (h : r'.enclaveMessage = r.enclaveMessage) :
    r'.dataLen = r.dataLen := by
  have hlen := congrArg List.length h
  rw [enclaveMessage, enclaveMessage, field_length, field_length, BitVec.toNat_inj] at hlen
  exact (BitVec.add_right_inj _).mp hlen

/-- Enclave hash, data length and data are the same. -/
def SameBody (r r' : Report) : Prop :=
  r.enclaveHash = r'.enclaveHash ∧ r.dataLen = r'.dataLen ∧
    r.data.take r.dataLen.toNat = r'.data.take r'.dataLen.toNat

/-- A message of legal length is the message of one body only. -/
theorem sameBody_of_message {r r' : Report} (h : r.dataLen.toNat ≤ attestDataMaxlen)
    (hm : r'.enclaveMessage = r.enclaveMessage) : r'.SameBody r := by
  have hlen := dataLen_of_message hm
  rw [enclaveMessage_eq r h, enclaveMessage_eq r' (by rw [hlen]; exact h)] at hm
  obtain ⟨hfront, hdata⟩ := List.append_inj hm (by simp [enclaveHash])
  obtain ⟨hhash, -⟩ := List.append_inj hfront (by simp [enclaveHash])
  exact ⟨hhash, hlen, hdata⟩

/-! ### Binding -/

/-- The signed messages are exactly the bodies of the two reports, and these
are the expected ones. -/
structure Attested (r : Report) (expectedEnclaveHash expectedSmHash : Fin mdsize → Byte) :
    Prop where
  dataLen_le : r.dataLen.toNat ≤ attestDataMaxlen
  enclaveMessage :
    r.enclaveMessage = r.enclaveHash ++ leBytes r.dataLen ++ r.data.take r.dataLen.toNat
  enclaveHash : r.enclaveHash = List.ofFn expectedEnclaveHash
  smMessage : r.smMessage = r.smHash ++ r.smPublicKey
  smHash : r.smHash = List.ofFn expectedSmHash

/-- Whatever the signature scheme, an accepted report is attested, and no other
accepted report with a different body was accepted on the same message. -/
def Binds (r : Report) (expectedEnclaveHash expectedSmHash : Fin mdsize → Byte)
    (devPublicKey : List Byte) : Prop :=
  ∀ ed25519Verify : Ed25519Verify,
    r.verify ed25519Verify expectedEnclaveHash expectedSmHash devPublicKey = true →
      r.Attested expectedEnclaveHash expectedSmHash ∧
        ∀ (r' : Report) (expectedEnclaveHash' expectedSmHash' : Fin mdsize → Byte)
          (devPublicKey' : List Byte),
          r'.verify ed25519Verify expectedEnclaveHash' expectedSmHash' devPublicKey' = true →
            r'.enclaveMessage = r.enclaveMessage → r'.SameBody r

/-- **Attestation binds the whole body exactly for legal data lengths**: of the
reports that pass the hash comparisons, the ones whose data length exceeds the
data area are accepted on some other message. -/
theorem verify_binds_iff (object : Report) (bin : ℕ → Byte)
    (expectedEnclaveHash expectedSmHash : Fin mdsize → Byte) (devPublicKey : List Byte) :
    (object.fromBytes bin).Binds expectedEnclaveHash expectedSmHash devPublicKey ↔
      (object.fromBytes bin).dataLen.toNat ≤ attestDataMaxlen ∨
        (object.fromBytes bin).enclaveHash ≠ List.ofFn expectedEnclaveHash ∨
        (object.fromBytes bin).smHash ≠ List.ofFn expectedSmHash := by
  set r := object.fromBytes bin
  constructor
  · intro hbinds
    by_contra hno
    push Not at hno
    obtain ⟨hlong, hhash, hsm⟩ := hno
    -- a scheme that accepts everything leaves only the hashes to be checked
    have haccept : r.verify (fun _ _ _ => true) expectedEnclaveHash expectedSmHash
        devPublicKey = true := by
      rw [verify_iff]
      exact ⟨hhash.symm, hsm.symm, rfl, rfl⟩
    have := (hbinds _ haccept).1.dataLen_le
    omega
  · intro hcond ed25519Verify haccept
    obtain ⟨hhash, hsm, -, -⟩ := (verify_iff ..).mp haccept
    have hlen : r.dataLen.toNat ≤ attestDataMaxlen := by
      rcases hcond with h | h | h
      · exact h
      · exact absurd hhash.symm h
      · exact absurd hsm.symm h
    exact ⟨⟨hlen, enclaveMessage_eq r hlen, hhash.symm, smMessage_eq r, hsm.symm⟩,
      fun r' _ _ _ _ hm => sameBody_of_message hlen hm⟩

end Report

/-- A report of zeros but for its data length, `2 ^ 64 - 72`. -/
def wrappingReport : ℕ → Byte := fun i =>
  if i = mdsize then 0xb8 else if mdsize < i ∧ i < mdsize + 8 then 0xff else 0

/-- The report is accepted on the empty message. -/
theorem verify_wrapping_dataLen :
    ¬ (Report.fromBytes ⟨fun _ => 0, 0x1000#64⟩ wrappingReport).Binds (fun _ => 0) (fun _ => 0)
      (List.replicate publicKeySize 0) := by
  intro hbinds
  set r := Report.fromBytes ⟨fun _ => 0, 0x1000#64⟩ wrappingReport with hr
  have haccept : r.verify (fun _ _ _ => true) (fun _ => 0) (fun _ => 0)
      (List.replicate publicKeySize 0) = true := by
    rw [Report.verify_iff]
    refine ⟨?_, ?_, rfl, rfl⟩
    · rw [hr]
      decide +kernel
    · rw [hr]
      decide +kernel
  have hlen := (hbinds _ haccept).1.dataLen_le
  rw [hr] at hlen
  revert hlen
  decide +kernel

end KeystoneSdk
