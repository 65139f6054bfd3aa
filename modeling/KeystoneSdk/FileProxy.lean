/-
Reading files from inside the enclave (`file.c` of the test programs).

`fread` sends a request to the host and copies what the reply says.  A reply is
an item count and data, and both are the host's.

* `FileProxy` — what the functions find: their allocations and the host;
* `fopen`, `readFromFile`, `fread`, `read`, `fgets` — the functions;
* `memcpy_reply` — how much `memcpy` stores, also where its range wraps;
* `exec_fread_none`, `exec_fread_some` — the two ways a call of `fread` goes.
-/
import KeystoneSdk.AccessLog
import KeystoneSdk.AppString
import KeystoneSdk.Stopping

open ByteMemory AccessLog StopM

namespace KeystoneSdk

/-! ### The functions -/

/-- What a reply leaves in `file_input`. -/
structure FileReply where
  count : BitVec 32
  data : ℕ → Byte

/-- A request: a `file_struct`, and the bytes sent behind it. -/
structure FileRequest where
  blockSize : BitVec 64
  numBlocks : BitVec 64
  offset : BitVec 64
  name : List Byte

/-- What the functions find when they run.  Calls are counted from 0. -/
structure FileProxy where
  /-- Whether `malloc` succeeds in `fopen`. -/
  imageBlock : Bool
  /-- `none` when a `malloc` fails in the call, else what the last byte of the request
  block holds: nothing writes it. -/
  fileData : ℕ → Option Byte
  /-- The host. -/
  ocall : ℕ → FileRequest → FileReply

/-- Why a call does not come back. -/
inductive FileStop
  | segfault
  | diverges
  deriving DecidableEq

/-- The memory outside the blocks of `file.c`, the globals, and the requests so far. -/
structure FileState where
  touched : Touched
  imageName : List Byte
  offsetInFile : BitVec 64
  requests : List FileRequest

abbrev FileM := StopM FileStop FileState

/-- Store `n` bytes. -/
def storeData (a : Addr) (n : ℕ) (f : ℕ → Byte) : FileM Unit :=
  modify fun s => { s with touched := ((storeBytes a n f).run s.touched).2 }

/-- The bytes `memcpy` stores when it copies byte by byte: none where the end of the
range wraps around. -/
def storedBytes (dest : Addr) (len : BitVec 64) : ℕ :=
  if dest.toNat + len.toNat < 2 ^ 64 then len.toNat else 0

/-- The newline character. -/
def newline : Byte := 10

namespace FileProxy

/-- `fopen`, for a string without its NUL. -/
def fopen (p : FileProxy) (path : List Byte) : FileM (BitVec 64) := do
  if p.imageBlock then
    modify fun s => { s with imageName := path }
    return 20#64
  else throw .segfault

/-- `read_from_file`; the result is `*data_read`. -/
def readFromFile (p : FileProxy) (readBuffer : Addr) (blockSize numBlocks offset : BitVec 64) :
    FileM (BitVec 32) := do
  let s ← get
  match p.fileData s.requests.length with
  | none => throw .segfault
  | some behind =>
    -- `strlen(image_name)` bytes are copied, and one more is sent
    let request := ⟨blockSize, numBlocks, offset, s.imageName ++ [behind]⟩
    let reply := p.ocall s.requests.length request
    modify fun s => { s with requests := s.requests ++ [request] }
    -- `file_input` is a block of `malloc`, so that the data is not aligned to words
    storeData readBuffer (storedBytes readBuffer (reply.count.signExtend 64 * blockSize)) reply.data
    return reply.count

/-- `fread`. -/
def fread (p : FileProxy) (ptr : Addr) (size nmemb : BitVec 64) : FileM (BitVec 64) := do
  let valueToReturn ← p.readFromFile ptr size nmemb (← get).offsetInFile
  modify fun s => { s with offsetInFile := s.offsetInFile + size * valueToReturn.signExtend 64 }
  return valueToReturn.signExtend 64

/-- `read` of the compression benchmark; the file descriptor is not looked at. -/
def read (p : FileProxy) (buf : Addr) (count : BitVec 64) : FileM (BitVec 64) := do
  let valueToReturn ← p.readFromFile buf 1#64 count (← get).offsetInFile
  modify fun s =>
    { s with offsetInFile := s.offsetInFile + (1#32 * valueToReturn).signExtend 64 }
  return valueToReturn.signExtend 64

/-- The loop of `fgets`. -/
def fgetsLoop (p : FileProxy) (s : Addr) : ℕ → BitVec 32 → FileM (BitVec 32)
  | 0, _ => throw .diverges
  | n + 1, i => do
    let result := (← p.fread (s + i.signExtend 64) 1#64 1#64).setWidth 32
    let lastRead := (← get).touched.mem (s + i.signExtend 64)
    if result ≠ 0#32 ∧ lastRead ≠ newline then p.fgetsLoop s n (i + result)
    else return i + result

/-- `fgets`, whose loop makes at most `rounds` rounds; `none` for `NULL`.  The size is
not looked at. -/
def fgets (p : FileProxy) (rounds : ℕ) (s : Addr) (_size : BitVec 32) : FileM (Option Addr) := do
  let i ← p.fgetsLoop s rounds 0#32
  storeData (s + i.signExtend 64) 1 fun _ => 0
  return if i = 0#32 then none else some s

end FileProxy

/-- `read` is `fread` with items of one byte. -/
theorem FileProxy.read_eq_fread (p : FileProxy) (buf : Addr) (count : BitVec 64) :
    p.read buf count = p.fread buf 1#64 count := by
  simp only [FileProxy.read, FileProxy.fread, BitVec.one_mul]

/-! ### What `memcpy` stores -/

/-- **`memcpy` of a reply**: the source is not aligned, and lies apart from what is stored. -/
theorem memcpy_reply {m : Mem} {d s : ℕ} {len : BitVec 64} (hd : d < 2 ^ 64)
    (hs : s + len.toNat < 2 ^ 64) (haligned : wordAligned (BitVec.ofNat 64 d) (BitVec.ofNat 64 s) = false)
    (hdisj : d + len.toNat < 2 ^ 64 → d + len.toNat ≤ s ∨ s + len.toNat ≤ d) :
    memcpy m (BitVec.ofNat 64 d) (BitVec.ofNat 64 s) len =
      some (writeBytes m (BitVec.ofNat 64 d) (storedBytes (BitVec.ofNat 64 d) len) fun i =>
        m (BitVec.ofNat 64 (s + i))) := by
  have hdest : (BitVec.ofNat 64 d).toNat = d := Nat.mod_eq_of_lt hd
  have hlen : len = BitVec.ofNat 64 len.toNat := by rw [BitVec.ofNat_toNat, BitVec.setWidth_eq]
  have hcopy : memcpy m (BitVec.ofNat 64 d) (BitVec.ofNat 64 s) len = copyByteLoop pointerRounds
      (BitVec.ofNat 64 d + len) (BitVec.ofNat 64 d) (BitVec.ofNat 64 s) m :=
    if_neg (by rw [haligned]; exact Bool.false_ne_true)
  rw [hcopy, storedBytes, hdest]
  by_cases hwrap : d + len.toNat < 2 ^ 64
  · have hzero : copied m d s 0 = m := writeBytes_zero m _ _
    have hspec := copyByteLoop_spec (m := m) hwrap hs (hdisj hwrap) (Nat.zero_le len.toNat)
      (show len.toNat - 0 < pointerRounds by unfold pointerRounds; omega)
    rw [hzero, Nat.add_zero, Nat.add_zero] at hspec
    rw [if_pos hwrap]
    conv_lhs => rw [hlen, ← BitVec.ofNat_add]
    exact hspec
  · -- the limit is below the destination
    have hlt := len.isLt
    have hlimit : ¬ BitVec.ofNat 64 d < BitVec.ofNat 64 d + len := by
      rw [BitVec.lt_def, BitVec.toNat_add, hdest]
      omega
    rw [if_neg hwrap, writeBytes_zero]
    exact if_neg hlimit

/-! ### Runs of the functions -/

section Runs

variable {p : FileProxy} {s : FileState}

/-- The state after a request and its reply. -/
def FileState.answered (s : FileState) (request : FileRequest) (buffer : Addr) (n : ℕ)
    (data : ℕ → Byte) : FileState :=
  { s with
    touched := { s.touched with
      mem := writeBytes s.touched.mem buffer n data
      writes := s.touched.writes ++ [(buffer, n)] }
    requests := s.requests ++ [request] }

/-- The request that `fread` sends. -/
def FileState.request (s : FileState) (size nmemb : BitVec 64) (behind : Byte) : FileRequest :=
  ⟨size, nmemb, s.offsetInFile, s.imageName ++ [behind]⟩

theorem exec_fread_none (h : p.fileData s.requests.length = none) (ptr : Addr)
    (size nmemb : BitVec 64) : exec (p.fread ptr size nmemb) s = (.error .segfault, s) := by
  have hread : exec (p.readFromFile ptr size nmemb s.offsetInFile) s = (.error .segfault, s) := by
    rw [FileProxy.readFromFile, exec_bind, exec_get]
    simp only [h]
    rfl
  rw [FileProxy.fread, exec_bind, exec_get]
  exact exec_bind_error hread

theorem exec_fread_some {behind : Byte} (h : p.fileData s.requests.length = some behind)
    (ptr : Addr) (size nmemb : BitVec 64) {r : FileReply}
    (hr : p.ocall s.requests.length (s.request size nmemb behind) = r) :
    exec (p.fread ptr size nmemb) s = (.ok (r.count.signExtend 64),
      { s.answered (s.request size nmemb behind) ptr
          (storedBytes ptr (r.count.signExtend 64 * size)) r.data with
        offsetInFile := s.offsetInFile + size * r.count.signExtend 64 }) := by
  have hread : exec (p.readFromFile ptr size nmemb s.offsetInFile) s = (.ok r.count,
      s.answered (s.request size nmemb behind) ptr
        (storedBytes ptr (r.count.signExtend 64 * size)) r.data) := by
    subst hr
    rw [FileProxy.readFromFile, exec_bind, exec_get]
    simp only [h]
    rfl
  rw [FileProxy.fread, exec_bind, exec_get]
  exact (exec_bind_ok hread).trans rfl

end Runs

end KeystoneSdk
