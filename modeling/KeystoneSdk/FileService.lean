/-
Reading a file through the host: `read_from_file_wrapper`, with `fopen` and `fread`
of `file.c` on top of it.

* `FileHost`, `readFromFileWrapper` — the host's side of a request, and what it opens;
* `ReadCall`, `idealReads` — reading a file as a stream;
* `opened_iff` — the path reaches the host iff the byte sent behind it is its NUL;
* `exec_readOne_served` — a request that the host serves delivers the next items;
* `exec_read_served` — the same for `read`;
* `readAll_iff` — a list of calls, one after the other;
* **`fileProxy_delivers_iff`** — from `fopen` on.
-/
import KeystoneSdk.FileReads

open ByteMemory AccessLog StopM

namespace KeystoneSdk

/-! ### The host -/

/-- A file of the host; its length is an `off_t`. -/
structure HostFile where
  bytes : List Byte
  small : bytes.length < 2 ^ 63

/-- What the host finds when it answers.  Requests are counted from 0. -/
structure FileHost where
  /-- The files, by the names `fopen` knows them under. -/
  files : List Byte → Option HostFile
  /-- What the shared region holds behind a request. -/
  behind : ℕ → List Byte
  /-- Whether `malloc` succeeds while a request is answered. -/
  enough : ℕ → Bool
  /-- The longest reply that `edge_call_setup_wrapped_ret` takes. -/
  room : ℕ

namespace FileHost

/-- The name that `read_from_file_wrapper` passes to `fopen`: a string, up to its NUL. -/
def opened (h : FileHost) (k : ℕ) (r : FileRequest) : List Byte :=
  (r.name ++ h.behind k).takeWhile (· ≠ 0)

/-- `read_from_file_wrapper`; `none` where no reply is set up. -/
def readFromFileWrapper (h : FileHost) (k : ℕ) (r : FileRequest) : Option FileReply :=
  match h.files (h.opened k r) with
  | none => none
  | some fd =>
    if h.enough k then
      -- `fseek`
      if 0 ≤ r.offset.toInt then
        let items := min r.numBlocks.toNat
          ((fd.bytes.length - r.offset.toNat) / r.blockSize.toNat)
        let bytesRead := BitVec.ofNat 32 items
        -- the block `data_buf` is long enough, and a negative `int` is the length of none
        if items * r.blockSize.toNat ≤ (r.blockSize * r.numBlocks + 8#64).toNat ∧
            0 ≤ bytesRead.toInt ∧ bytesRead.toNat * r.blockSize.toNat + 4 ≤ h.room then
          some ⟨bytesRead, fun i => (fd.bytes.drop r.offset.toNat).getD i 0⟩
        else none
      else none
    else none

/-- The enclave's side on this host.  A request without a reply finds in `file_input`
what is left there. -/
def proxy (h : FileHost) (imageBlock : Bool) (heap : ℕ → Option Byte) (left : ℕ → FileReply) :
    FileProxy where
  imageBlock := imageBlock
  fileData := heap
  ocall := fun k r => (h.readFromFileWrapper k r).getD (left k)

end FileHost

/-! ### Reading a stream -/

/-- A call of `fread`, with the array of `nmemb` elements of `size` bytes that it has to be
given. -/
structure ReadCall where
  ptr : Addr
  size : BitVec 64
  nmemb : BitVec 64
  size_pos : 0 < size.toNat
  above : 8 ≤ ptr.toNat
  array : ptr.toNat + size.toNat * nmemb.toNat < 2 ^ 64

/-- What a call delivers. -/
structure Read where
  items : ℕ
  bytes : List Byte

/-- A call on what is left of a stream. -/
def idealRead (rest : List Byte) (c : ReadCall) : Read :=
  let items := min c.nmemb.toNat (rest.length / c.size.toNat)
  ⟨items, rest.take (items * c.size.toNat)⟩

/-- Calls on a stream, one after the other. -/
def idealReads : List Byte → List ReadCall → List Read
  | _, [] => []
  | rest, c :: cs => idealRead rest c :: idealReads (rest.drop (idealRead rest c).bytes.length) cs

theorem idealRead_fits (rest : List Byte) (c : ReadCall) :
    (idealRead rest c).items * c.size.toNat ≤ rest.length := by
  have hle : (idealRead rest c).items ≤ rest.length / c.size.toNat := Nat.min_le_right _ _
  calc (idealRead rest c).items * c.size.toNat ≤ rest.length / c.size.toNat * c.size.toNat :=
        Nat.mul_le_mul_right _ hle
    _ ≤ rest.length := Nat.div_mul_le_self _ _

theorem idealRead_length (rest : List Byte) (c : ReadCall) :
    (idealRead rest c).bytes.length = (idealRead rest c).items * c.size.toNat := by
  show (rest.take ((idealRead rest c).items * c.size.toNat)).length = _
  rw [List.length_take, Nat.min_eq_left (idealRead_fits rest c)]

/-- **What the calls deliver is one stretch of the stream**, from its start. -/
theorem idealReads_prefix (rest : List Byte) (calls : List ReadCall) :
    (idealReads rest calls).flatMap (·.bytes) <+: rest := by
  induction calls generalizing rest with
  | nil => exact List.nil_prefix
  | cons c cs ih =>
    obtain ⟨tail, htail⟩ := ih (rest.drop (idealRead rest c).bytes.length)
    have htake : (idealRead rest c).bytes = rest.take (idealRead rest c).bytes.length := by
      conv_rhs => rw [idealRead_length]
      rfl
    refine ⟨tail, ?_⟩
    rw [idealReads, List.flatMap_cons, List.append_assoc, htail]
    conv_lhs => rw [htake]
    rw [List.length_take_of_le]
    · exact List.take_append_drop _ _
    · rw [idealRead_length]
      exact idealRead_fits rest c

/-! ### Calls of the program -/

namespace FileProxy

/-- A call, with what it leaves in the array it was given. -/
def readOne (p : FileProxy) (c : ReadCall) : FileM Read := do
  let n ← p.fread c.ptr c.size c.nmemb
  let m := (← get).touched.mem
  return ⟨n.toNat, readBytes m c.ptr (n.toNat * c.size.toNat)⟩

/-- Calls, one after the other. -/
def readAll (p : FileProxy) : List ReadCall → FileM (List Read)
  | [] => return []
  | c :: cs => do
    let r ← p.readOne c
    let rs ← p.readAll cs
    return r :: rs

/-- A program that opens a file and reads it. -/
def session (p : FileProxy) (path : List Byte) (calls : List ReadCall) : FileM (List Read) := do
  let _ ← p.fopen path
  p.readAll calls

end FileProxy

/-- From the state `s` on, the calls read `rest`, and the host opens `path` for each. -/
def Delivers (h : FileHost) (m : FileM (List Read)) (path rest : List Byte)
    (calls : List ReadCall) (s : FileState) : Prop :=
  ∃ st, exec m s = (.ok (idealReads rest calls), st) ∧
    ∀ j r, s.requests.length ≤ j → st.requests[j]? = some r → h.opened j r = path

/-- What the `k`th request needs to be served. -/
structure Serves (h : FileHost) (heap : ℕ → Option Byte) (k : ℕ) (items : ℕ) : Prop where
  terminated : heap k = some 0
  enough : h.enough k = true
  int : items < 2 ^ 31

/-! ### One request -/

section Request

variable {h : FileHost} {path : List Byte} {file : HostFile} {c : ReadCall} {pos k : ℕ}

/-- The path reaches the host iff the byte sent behind it is its NUL. -/
theorem opened_iff (hpath : 0 ∉ path) (r : FileRequest) {behind : Byte}
    (hname : r.name = path ++ [behind]) : h.opened k r = path ↔ behind = 0 := by
  have hwhile : h.opened k r = path ++ ([behind] ++ h.behind k).takeWhile (· ≠ 0) := by
    rw [FileHost.opened, hname, List.append_assoc]
    refine List.takeWhile_append_of_pos fun b hb => ?_
    exact decide_eq_true fun hzero => hpath (hzero ▸ hb)
  rw [hwhile, List.append_right_eq_self, List.singleton_append, List.takeWhile_cons]
  by_cases hzero : behind = 0
  · rw [if_neg (by simpa using hzero)]
    exact iff_of_true rfl hzero
  · rw [if_pos (by simpa using hzero)]
    exact iff_of_false (List.cons_ne_nil _ _) hzero

/-- The request of a call at a position of the file. -/
def requestAt (path : List Byte) (pos : ℕ) (c : ReadCall) : FileRequest :=
  ⟨c.size, c.nmemb, BitVec.ofNat 64 pos, path ++ [0]⟩

/-- The reply the wrapper sets up, if its blocks and the shared region have room. -/
theorem readFromFileWrapper_eq (hpath : 0 ∉ path) (hfile : h.files path = some file)
    (hpos : pos ≤ file.bytes.length) (henough : h.enough k = true)
    (hroom : (idealRead (file.bytes.drop pos) c).bytes.length + 4 ≤ h.room) :
    h.readFromFileWrapper k (requestAt path pos c) =
      if 0 ≤ (BitVec.ofNat 32 (idealRead (file.bytes.drop pos) c).items).toInt then
        some ⟨BitVec.ofNat 32 (idealRead (file.bytes.drop pos) c).items,
          fun i => (file.bytes.drop pos).getD i 0⟩
      else none := by
  have hopen : h.opened k (requestAt path pos c) = path := (opened_iff hpath _ rfl).mpr rfl
  have hsmall := file.small
  have hnat : (BitVec.ofNat 64 pos).toNat = pos := Nat.mod_eq_of_lt (by omega)
  have hint : 0 ≤ (BitVec.ofNat 64 pos).toInt := by
    rw [BitVec.toInt_eq_toNat_cond, hnat]
    split <;> omega
  have hitems : min c.nmemb.toNat ((file.bytes.length - pos) / c.size.toNat) =
      (idealRead (file.bytes.drop pos) c).items := by
    rw [idealRead, List.length_drop]
  generalize hn : (idealRead (file.bytes.drop pos) c).items = n at hitems ⊢
  have hle : n ≤ c.nmemb.toNat := by
    rw [← hitems]
    exact Nat.min_le_left _ _
  -- the product in the length of `data_buf` does not wrap
  have harray := c.array
  have habove := c.above
  have hproduct : (c.size * c.nmemb + 8#64).toNat = c.size.toNat * c.nmemb.toNat + 8 := by
    have hmul : (c.size * c.nmemb).toNat = c.size.toNat * c.nmemb.toNat :=
      BitVec.toNat_mul_of_lt (by omega)
    rw [BitVec.toNat_add_of_lt, hmul]
    · rfl
    · rw [hmul]
      show _ + 8 < _
      omega
  have hbuf : n * c.size.toNat ≤ c.size.toNat * c.nmemb.toNat := by
    rw [Nat.mul_comm]
    exact Nat.mul_le_mul_left _ hle
  have hlength : (BitVec.ofNat 32 n).toNat * c.size.toNat + 4 ≤ h.room := by
    rw [idealRead_length, hn] at hroom
    have hmod : (BitVec.ofNat 32 n).toNat ≤ n := Nat.mod_le _ _
    have := Nat.mul_le_mul_right c.size.toNat hmod
    omega
  rw [FileHost.readFromFileWrapper, hopen, hfile]
  simp only [requestAt, henough, if_true, hnat, if_pos hint, hitems, hproduct]
  by_cases hnonneg : 0 ≤ (BitVec.ofNat 32 n).toInt
  · rw [if_pos hnonneg, if_pos ⟨by omega, hnonneg, hlength⟩]
  · rw [if_neg hnonneg, if_neg fun hall => hnonneg hall.2.1]

theorem toInt_ofNat_nonneg {n : ℕ} (hn : n < 2 ^ 31) : 0 ≤ (BitVec.ofNat 32 n).toInt := by
  rw [BitVec.toInt_eq_toNat_cond, BitVec.toNat_ofNat, Nat.mod_eq_of_lt (by omega), if_pos (by omega)]
  omega

/-- What the host sets up for a request that it does not serve has another count. -/
theorem count_ne_of_not_served (hpath : 0 ∉ path) (hfile : h.files path = some file)
    (hpos : pos ≤ file.bytes.length)
    (hroom : (idealRead (file.bytes.drop pos) c).bytes.length + 4 ≤ h.room)
    (hnot : ¬ (h.enough k = true ∧ (idealRead (file.bytes.drop pos) c).items < 2 ^ 31))
    {r : FileReply} (hr : h.readFromFileWrapper k (requestAt path pos c) = some r) :
    (r.count.signExtend 64).toNat ≠ (idealRead (file.bytes.drop pos) c).items := by
  by_cases henough : h.enough k = true
  · rw [readFromFileWrapper_eq hpath hfile hpos henough hroom] at hr
    have hlarge : 2 ^ 31 ≤ (idealRead (file.bytes.drop pos) c).items :=
      Nat.le_of_not_lt fun hlt => hnot ⟨henough, hlt⟩
    generalize (idealRead (file.bytes.drop pos) c).items = n at hr hlarge ⊢
    split at hr
    · next hnonneg =>
      cases hr
      show ((BitVec.ofNat 32 n).signExtend 64).toNat ≠ n
      have hcount := BitVec.toInt_lt (x := BitVec.ofNat 32 n)
      rw [signExtend_toNat, if_neg (by omega)]
      omega
    · cases hr
  · have hnone : h.readFromFileWrapper k (requestAt path pos c) = none := by
      rw [FileHost.readFromFileWrapper]
      split
      · rfl
      · rw [if_neg henough]
    rw [hnone] at hr
    cases hr

end Request

/-! ### Runs of calls -/

section Runs

variable {p : FileProxy} {s st : FileState} {c : ReadCall} {cs : List ReadCall}

/-- The state after a call and its reply. -/
def FileState.afterRead (s : FileState) (c : ReadCall) (behind : Byte) (r : FileReply) :
    FileState :=
  { s.answered (s.request c.size c.nmemb behind) c.ptr
      (storedBytes c.ptr (r.count.signExtend 64 * c.size)) r.data with
    offsetInFile := s.offsetInFile + c.size * r.count.signExtend 64 }

theorem exec_readOne_none (h : p.fileData s.requests.length = none) (c : ReadCall) :
    exec (p.readOne c) s = (.error .segfault, s) :=
  exec_bind_error (exec_fread_none h _ _ _)

theorem exec_readOne_some {behind : Byte} (h : p.fileData s.requests.length = some behind)
    (c : ReadCall) {r : FileReply}
    (hr : p.ocall s.requests.length (s.request c.size c.nmemb behind) = r) :
    exec (p.readOne c) s = (.ok ⟨(r.count.signExtend 64).toNat,
      readBytes (s.afterRead c behind r).touched.mem c.ptr
        ((r.count.signExtend 64).toNat * c.size.toNat)⟩, s.afterRead c behind r) := by
  rw [FileProxy.readOne, exec_bind_ok (exec_fread_some h _ _ _ hr), exec_bind, exec_get]
  rfl

/-- What a call leaves in its array is what `fread` stored there. -/
theorem exec_fread_of_readOne {r : Read} (h : exec (p.readOne c) s = (.ok r, st)) :
    ∃ n, exec (p.fread c.ptr c.size c.nmemb) s = (.ok n, st) ∧
      r = ⟨n.toNat, readBytes st.touched.mem c.ptr (n.toNat * c.size.toNat)⟩ := by
  rw [FileProxy.readOne, exec_bind] at h
  rcases hrun : exec (p.fread c.ptr c.size c.nmemb) s with ⟨_ | n, st'⟩
  · rw [hrun] at h
    cases h
  · rw [hrun] at h
    cases h
    exact ⟨n, rfl, rfl⟩

theorem exec_readAll_cons {reads : List Read}
    (h : exec (p.readAll (c :: cs)) s = (.ok reads, st)) :
    ∃ r s' rs, exec (p.readOne c) s = (.ok r, s') ∧ exec (p.readAll cs) s' = (.ok rs, st) ∧
      reads = r :: rs := by
  rw [FileProxy.readAll, exec_bind] at h
  rcases hone : exec (p.readOne c) s with ⟨_ | r, s'⟩
  · rw [hone] at h
    cases h
  · rw [hone] at h
    simp only [exec_bind] at h
    rcases hall : exec (p.readAll cs) s' with ⟨_ | rs, st'⟩
    · rw [hall] at h
      cases h
    · rw [hall] at h
      cases h
      exact ⟨r, s', rs, rfl, hall, rfl⟩

/-- A call that returns has sent one request. -/
theorem requests_readOne {r : Read} (h : exec (p.readOne c) s = (.ok r, st)) :
    ∃ behind, p.fileData s.requests.length = some behind ∧
      st.requests = s.requests ++ [s.request c.size c.nmemb behind] := by
  rcases hblock : p.fileData s.requests.length with _ | behind
  · rw [exec_readOne_none hblock] at h
    cases h
  · rw [exec_readOne_some hblock c rfl] at h
    cases h
    exact ⟨behind, rfl, rfl⟩

/-- Calls keep the requests sent before them. -/
theorem requests_readAll {reads : List Read} (h : exec (p.readAll cs) s = (.ok reads, st)) :
    s.requests <+: st.requests := by
  induction cs generalizing s reads with
  | nil =>
    cases h
    exact List.prefix_refl _
  | cons c cs ih =>
    obtain ⟨r, s', rs, hone, hall, _⟩ := exec_readAll_cons h
    obtain ⟨behind, _, hreq⟩ := requests_readOne hone
    exact (hreq ▸ List.prefix_append _ _).trans (ih hall)

/-- The request of the first call, in the log of all. -/
theorem getElem_requests {s' : FileState} {request : FileRequest} {reads : List Read}
    (hreq : s'.requests = s.requests ++ [request])
    (hall : exec (p.readAll cs) s' = (.ok reads, st)) :
    st.requests[s.requests.length]? = some request := by
  obtain ⟨tail, htail⟩ := requests_readAll hall
  rw [← htail, hreq, List.append_assoc, List.getElem?_append_right (le_refl _), Nat.sub_self]
  rfl

end Runs

/-! ### Requests that are served, and others -/

section Served

variable {h : FileHost} {path : List Byte} {file : HostFile} {c : ReadCall} {cs : List ReadCall}
  {pos : ℕ} {s : FileState} {imageBlock : Bool} {heap : ℕ → Option Byte}

/-- Between two calls: the file is open, and read up to `pos`. -/
structure ReadUpTo (file : HostFile) (path : List Byte) (pos : ℕ) (s : FileState) : Prop where
  name : s.imageName = path
  offset : s.offsetInFile = BitVec.ofNat 64 pos
  inside : pos ≤ file.bytes.length

theorem ReadUpTo.request_eq (hs : ReadUpTo file path pos s) (c : ReadCall) :
    s.request c.size c.nmemb 0 = requestAt path pos c := by
  rw [FileState.request, requestAt, hs.name, hs.offset]

/-- The reply to a request that is served. -/
def servedReply (rest : List Byte) (c : ReadCall) : FileReply :=
  ⟨BitVec.ofNat 32 (idealRead rest c).items, fun i => rest.getD i 0⟩

theorem count_servedReply {rest : List Byte} (hint : (idealRead rest c).items < 2 ^ 31) :
    (servedReply rest c).count.signExtend 64 = BitVec.ofNat 64 (idealRead rest c).items :=
  signExtend_ofNat hint

/-- **A request that is served** delivers the next items, whatever an unserved one would have
found. -/
theorem exec_readOne_served (hpath : 0 ∉ path) (hfile : h.files path = some file)
    (hs : ReadUpTo file path pos s)
    (hroom : (idealRead (file.bytes.drop pos) c).bytes.length + 4 ≤ h.room)
    (hserves : Serves h heap s.requests.length (idealRead (file.bytes.drop pos) c).items)
    (left : ℕ → FileReply) :
    exec ((h.proxy imageBlock heap left).readOne c) s =
      (.ok (idealRead (file.bytes.drop pos) c),
        s.afterRead c 0 (servedReply (file.bytes.drop pos) c)) := by
  have hreply : (h.proxy imageBlock heap left).ocall s.requests.length
      (s.request c.size c.nmemb 0) = servedReply (file.bytes.drop pos) c := by
    show (h.readFromFileWrapper _ _).getD _ = _
    rw [hs.request_eq, readFromFileWrapper_eq hpath hfile hs.inside hserves.enough hroom,
      if_pos (toInt_ofNat_nonneg hserves.int)]
    rfl
  have hfits := idealRead_fits (file.bytes.drop pos) c
  have hcount := count_servedReply hserves.int
  have hsmall := file.small
  have harray := c.array
  rw [List.length_drop] at hfits
  have hitems : (idealRead (file.bytes.drop pos) c).items ≤ c.nmemb.toNat := Nat.min_le_left _ _
  have hint := hserves.int
  rw [exec_readOne_some hserves.terminated c hreply]
  have hbytes : (idealRead (file.bytes.drop pos) c).bytes =
      (file.bytes.drop pos).take ((idealRead (file.bytes.drop pos) c).items * c.size.toNat) := rfl
  generalize hn : (idealRead (file.bytes.drop pos) c).items = n at *
  have hnat : (BitVec.ofNat 64 n).toNat = n := Nat.mod_eq_of_lt (by omega)
  have hproduct : (BitVec.ofNat 64 n * c.size).toNat = n * c.size.toNat := by
    rw [BitVec.toNat_mul_of_lt (by rw [hnat]; omega), hnat]
  have hmul : n * c.size.toNat ≤ c.size.toNat * c.nmemb.toNat := by
    rw [Nat.mul_comm]
    exact Nat.mul_le_mul_left _ hitems
  have hstored : storedBytes c.ptr (BitVec.ofNat 64 n * c.size) = n * c.size.toNat := by
    rw [storedBytes, hproduct, if_pos (by omega)]
  have hmem : (s.afterRead c 0 (servedReply (file.bytes.drop pos) c)).touched.mem =
      writeBytes s.touched.mem c.ptr (n * c.size.toNat) fun i => (file.bytes.drop pos).getD i 0 := by
    rw [← hstored, ← hcount]
    rfl
  have hread : readBytes (s.afterRead c 0 (servedReply (file.bytes.drop pos) c)).touched.mem c.ptr
      (n * c.size.toNat) = (idealRead (file.bytes.drop pos) c).bytes := by
    rw [hmem, readBytes_writeBytes_same _ _ _ (by omega), hbytes]
    refine List.ext_getElem ?_ fun i hi _ => ?_
    · rw [List.length_map, List.length_range, List.length_take, List.length_drop]
      omega
    · rw [List.length_map, List.length_range] at hi
      rw [List.getElem_map, List.getElem_range, List.getElem_take, List.getD_eq_getElem?_getD,
        List.getElem?_eq_getElem, Option.getD_some]
  rw [hcount, hnat, hread, ← hn]

/-- The position after a call that was served. -/
theorem ReadUpTo.afterRead (hs : ReadUpTo file path pos s)
    (hint : (idealRead (file.bytes.drop pos) c).items < 2 ^ 31) :
    ReadUpTo file path (pos + (idealRead (file.bytes.drop pos) c).bytes.length)
      (s.afterRead c 0 (servedReply (file.bytes.drop pos) c)) := by
  have hfits := idealRead_fits (file.bytes.drop pos) c
  rw [List.length_drop] at hfits
  have hinside := hs.inside
  refine ⟨hs.name, ?_, ?_⟩
  · show s.offsetInFile + c.size * (servedReply (file.bytes.drop pos) c).count.signExtend 64 = _
    rw [count_servedReply hint, hs.offset, idealRead_length, BitVec.ofNat_add, BitVec.ofNat_mul,
      BitVec.ofNat_toNat, BitVec.setWidth_eq, BitVec.mul_comm]
  · rw [idealRead_length]
    omega

/-- **`read`** of a request that is served returns how many of the next bytes it stored, and the
file is read up to behind them. -/
theorem exec_read_served (hpath : 0 ∉ path) (hfile : h.files path = some file)
    (hs : ReadUpTo file path pos s) (hsize : c.size = 1#64)
    (hroom : (idealRead (file.bytes.drop pos) c).bytes.length + 4 ≤ h.room)
    (hserves : Serves h heap s.requests.length (idealRead (file.bytes.drop pos) c).items)
    (left : ℕ → FileReply) :
    ∃ n st, exec ((h.proxy imageBlock heap left).read c.ptr c.nmemb) s = (.ok n, st) ∧
      n.toNat = min c.nmemb.toNat (file.bytes.length - pos) ∧
      readBytes st.touched.mem c.ptr n.toNat = (file.bytes.drop pos).take c.nmemb.toNat ∧
      ReadUpTo file path (pos + n.toNat) st := by
  have hone : c.size.toNat = 1 := by
    rw [hsize]
    rfl
  obtain ⟨n, hfread, hread⟩ :=
    exec_fread_of_readOne (exec_readOne_served hpath hfile hs hroom hserves left)
  have hitems : (idealRead (file.bytes.drop pos) c).items = n.toNat := congrArg Read.items hread
  have hn : n.toNat = min c.nmemb.toNat (file.bytes.length - pos) := by
    rw [← hitems, idealRead, hone, Nat.div_one, List.length_drop]
  have hlength : (idealRead (file.bytes.drop pos) c).bytes.length = n.toNat := by
    rw [idealRead_length, hone, Nat.mul_one, hitems]
  refine ⟨n, _, ?_, hn, ?_, hlength ▸ hs.afterRead hserves.int⟩
  · rw [FileProxy.read_eq_fread, ← hsize]
    exact hfread
  · -- what `readOne` found in the array is what it should find
    have hbytes := congrArg Read.bytes hread
    dsimp only at hbytes
    rw [hone, Nat.mul_one] at hbytes
    rw [← hbytes]
    show (file.bytes.drop pos).take ((idealRead (file.bytes.drop pos) c).items * c.size.toNat) = _
    rw [hitems, hone, Nat.mul_one, hn, List.take_eq_take_iff, List.length_drop]
    omega

/-- A call that was served leaves the rest to the others. -/
theorem delivers_cons_iff {p : FileProxy} {rest : List Byte} {request : FileRequest}
    {s' : FileState} (hone : exec (p.readOne c) s = (.ok (idealRead rest c), s'))
    (hreq : s'.requests = s.requests ++ [request])
    (hopen : h.opened s.requests.length request = path) :
    Delivers h (p.readAll (c :: cs)) path rest (c :: cs) s ↔
      Delivers h (p.readAll cs) path (rest.drop (idealRead rest c).bytes.length) cs s' := by
  have hlen : s'.requests.length = s.requests.length + 1 := by
    rw [hreq, List.length_append, List.length_singleton]
  constructor
  · rintro ⟨st, hrun, hopened⟩
    obtain ⟨r, s₁, rs, hone', hall, hcons⟩ := exec_readAll_cons hrun
    rw [hone] at hone'
    cases hone'
    refine ⟨st, ?_, fun j r hj hr => hopened j r (by omega) hr⟩
    rw [hall, (List.cons.inj hcons).2]
  · rintro ⟨st, hrun, hopened⟩
    refine ⟨st, ?_, fun j r hj hr => ?_⟩
    · rw [FileProxy.readAll, exec_bind_ok hone, exec_bind_ok hrun]
      rfl
    · rcases Nat.lt_or_ge s.requests.length j with hlt | hge
      · exact hopened j r (by omega) hr
      · have hj' : j = s.requests.length := le_antisymm hge hj
        subst hj'
        rw [getElem_requests hreq hrun] at hr
        cases hr
        exact hopen

/-- **A request that is not served** spoils the reads, for some reply that is left there. -/
theorem not_delivers (hpath : 0 ∉ path) (hfile : h.files path = some file)
    (hs : ReadUpTo file path pos s)
    (hroom : (idealRead (file.bytes.drop pos) c).bytes.length + 4 ≤ h.room)
    (hnot : ¬ Serves h heap s.requests.length (idealRead (file.bytes.drop pos) c).items) :
    ∃ left, ¬ Delivers h ((h.proxy imageBlock heap left).readAll (c :: cs)) path
      (file.bytes.drop pos) (c :: cs) s := by
  -- a count that is not the one to deliver
  obtain ⟨other, hother⟩ : ∃ b : BitVec 32,
      (b.signExtend 64).toNat ≠ (idealRead (file.bytes.drop pos) c).items := by
    by_cases hzero : (idealRead (file.bytes.drop pos) c).items = 0
    · exact ⟨1#32, by rw [hzero]; decide⟩
    · exact ⟨0#32, fun h => hzero h.symm⟩
  refine ⟨fun _ => ⟨other, fun _ => 0⟩, ?_⟩
  rintro ⟨st, hrun, hopened⟩
  obtain ⟨r, s', rs, hone, hall, hcons⟩ := exec_readAll_cons hrun
  obtain ⟨behind, hblock, hreq⟩ := requests_readOne hone
  -- the path arrives, so that the byte behind it is a NUL
  have hopen := hopened _ _ (le_refl _) (getElem_requests hreq hall)
  have hzero : behind = 0 := by
    refine (opened_iff hpath _ ?_).mp hopen
    rw [FileState.request, hs.name]
  subst hzero
  have hhost : ¬ (h.enough s.requests.length = true ∧
      (idealRead (file.bytes.drop pos) c).items < 2 ^ 31) :=
    fun hall => hnot ⟨hblock, hall.1, hall.2⟩
  rw [exec_readOne_some hblock c rfl] at hone
  have hitems : r.items = (idealRead (file.bytes.drop pos) c).items :=
    congrArg Read.items (List.cons.inj hcons).1.symm
  obtain ⟨hr, _⟩ := Prod.mk.inj hone
  cases hr
  rw [hs.request_eq] at hitems
  rcases hserve : h.readFromFileWrapper s.requests.length (requestAt path pos c) with _ | reply
  · apply hother
    rw [← hitems]
    show _ = (((h.readFromFileWrapper _ _).getD _).count.signExtend 64).toNat
    rw [hserve]
    rfl
  · apply count_ne_of_not_served hpath hfile hs.inside hroom hhost hserve
    rw [← hitems]
    show _ = (((h.readFromFileWrapper _ _).getD _).count.signExtend 64).toNat
    rw [hserve]
    rfl

/-- A list of calls reads the file iff every request is served. -/
theorem readAll_iff (hpath : 0 ∉ path) (hfile : h.files path = some file)
    (hs : ReadUpTo file path pos s)
    (hroom : ∀ r ∈ idealReads (file.bytes.drop pos) cs, r.bytes.length + 4 ≤ h.room) :
    (∀ left, Delivers h ((h.proxy imageBlock heap left).readAll cs) path (file.bytes.drop pos) cs
      s) ↔
      ∀ j r, (idealReads (file.bytes.drop pos) cs)[j]? = some r →
        Serves h heap (s.requests.length + j) r.items := by
  induction cs generalizing s pos with
  | nil =>
    refine iff_of_true (fun left => ⟨s, rfl, fun j r hj hr => ?_⟩) fun j r hr => ?_
    · rw [List.getElem?_eq_none hj] at hr
      cases hr
    · rw [idealReads, List.getElem?_nil] at hr
      cases hr
  | cons c cs ih =>
    have hhead := hroom _ (List.mem_cons_self ..)
    by_cases hserves : Serves h heap s.requests.length (idealRead (file.bytes.drop pos) c).items
    · -- the first call is served, and the others go on behind it
      have hdrop : (file.bytes.drop pos).drop (idealRead (file.bytes.drop pos) c).bytes.length =
          file.bytes.drop (pos + (idealRead (file.bytes.drop pos) c).bytes.length) :=
        List.drop_drop ..
      have htail : ∀ r ∈ idealReads (file.bytes.drop
          (pos + (idealRead (file.bytes.drop pos) c).bytes.length)) cs,
          r.bytes.length + 4 ≤ h.room := fun r hr =>
        hroom r (List.mem_cons_of_mem _ (hdrop ▸ hr))
      have hrest := ih (hs.afterRead hserves.int) htail
      have hopen : h.opened s.requests.length (s.request c.size c.nmemb 0) = path := by
        rw [hs.request_eq]
        exact (opened_iff hpath _ rfl).mpr rfl
      have hlen : (s.afterRead c 0 (servedReply (file.bytes.drop pos) c)).requests.length =
          s.requests.length + 1 := List.length_append
      rw [hlen] at hrest
      have hcons : ∀ left, Delivers h ((h.proxy imageBlock heap left).readAll (c :: cs)) path
          (file.bytes.drop pos) (c :: cs) s ↔ _ := fun left =>
        delivers_cons_iff (exec_readOne_served hpath hfile hs hhead hserves left) rfl hopen
      refine (forall_congr' hcons).trans ?_
      rw [hdrop]
      refine hrest.trans ⟨fun hall j r hr => ?_, fun hall j r hr => ?_⟩
      · cases j with
        | zero =>
          cases hr
          exact hserves
        | succ j =>
          rw [idealReads, List.getElem?_cons_succ, hdrop] at hr
          have := hall j r hr
          rwa [Nat.add_assoc, Nat.add_comm 1] at this
      · have := hall (j + 1) r (by rw [idealReads, List.getElem?_cons_succ, hdrop]; exact hr)
        rwa [Nat.add_assoc, Nat.add_comm 1]
    · obtain ⟨left, hleft⟩ : ∃ left, ¬ Delivers h ((h.proxy imageBlock heap left).readAll
          (c :: cs)) path (file.bytes.drop pos) (c :: cs) s :=
        not_delivers hpath hfile hs hhead hserves
      exact iff_of_false (fun hall => hleft (hall left)) fun hall => hserves (hall 0 _ rfl)

end Served

/-! ### From `fopen` on -/

/-- **When the file proxy reads the file it was asked for.**  In a fresh program that opens a
path and reads it, every call delivers the next items of the file and the host opens that path
for each, iff the blocks can be allocated, every item count is an `int`, and the byte behind the
path in each request is a NUL by chance: nothing writes it. -/
theorem fileProxy_delivers_iff (h : FileHost) (imageBlock : Bool) (heap : ℕ → Option Byte)
    (m : Mem) {path : List Byte} (hpath : 0 ∉ path) {file : HostFile}
    (hfile : h.files path = some file) (calls : List ReadCall)
    (hroom : ∀ r ∈ idealReads file.bytes calls, r.bytes.length + 4 ≤ h.room) :
    ((∀ left, Delivers h ((h.proxy imageBlock heap left).session path calls) path file.bytes calls
      (.start m [] 0#64)) ↔
      imageBlock = true ∧ ∀ k r, (idealReads file.bytes calls)[k]? = some r →
        Serves h heap k r.items) ∧
    (idealReads file.bytes calls).flatMap (·.bytes) <+: file.bytes := by
  refine ⟨?_, idealReads_prefix _ _⟩
  cases imageBlock with
  | false =>
    refine iff_of_false (fun hall => ?_) fun hall => absurd hall.1 Bool.false_ne_true
    obtain ⟨st, hrun, _⟩ := hall fun _ => ⟨0#32, fun _ => 0⟩
    have herror : exec ((h.proxy false heap fun _ => ⟨0#32, fun _ => 0⟩).session path calls)
        (.start m [] 0#64) = (.error .segfault, .start m [] 0#64) := exec_bind_error rfl
    rw [herror] at hrun
    cases hrun
  | true =>
    have hopen : ∀ left, exec ((h.proxy true heap left).session path calls) (.start m [] 0#64) =
        exec ((h.proxy true heap left).readAll calls) (.start m path 0#64) :=
      fun left => exec_bind_ok rfl
    have hread : (∀ left, Delivers h ((h.proxy true heap left).readAll calls) path
        (file.bytes.drop 0) calls (.start m path 0#64)) ↔ _ :=
      readAll_iff hpath hfile ⟨rfl, rfl, Nat.zero_le _⟩ hroom
    rw [List.drop_zero] at hread
    rw [and_iff_right rfl]
    refine (forall_congr' fun left => ?_).trans (hread.trans ?_)
    · rw [Delivers, hopen]
      rfl
    · have hindex : ∀ j, (FileState.start m path 0#64).requests.length + j = j := Nat.zero_add
      simp only [hindex]

section Small

/-- A file `a` of three bytes. -/
def smallFile : HostFile := ⟨[1, 2, 3], by decide⟩

/-- A host with that file only. -/
def smallHost : FileHost where
  files := fun name => if name = [97] then some smallFile else none
  behind := fun _ => []
  enough := fun _ => true
  room := 100

/-- A read of two bytes, one by one. -/
def smallRead : ReadCall :=
  ⟨0x1000#64, 1#64, 2#64, by decide, by decide, by decide⟩

/-- The block of the request held a letter: the host is asked for another file. -/
theorem fileProxy_opens_other :
    ¬ ∀ left, Delivers smallHost ((smallHost.proxy true (fun _ => some 65) left).session [97]
      [smallRead]) [97] smallFile.bytes [smallRead] (.start (fun _ => 0) [] 0#64) := by
  intro hall
  obtain ⟨st, hrun, hopened⟩ := hall fun _ => ⟨0#32, fun _ => 0⟩
  have hst : st = (exec ((smallHost.proxy true (fun _ => some 65)
      fun _ => ⟨0#32, fun _ => 0⟩).session [97] [smallRead]) (.start (fun _ => 0) [] 0#64)).2 := by
    rw [hrun]
  have hsent : st.requests[0]? = some ⟨1#64, 2#64, 0#64, [97, 65]⟩ := by
    rw [hst]
    rfl
  exact absurd (hopened 0 _ (Nat.zero_le _) hsent) (by decide)

/-- Two reads of a file of three bytes, in a heap of zeros. -/
theorem fileProxy_delivers_iff_zeros :
    (∀ left, Delivers smallHost ((smallHost.proxy true (fun _ => some 0) left).session [97]
      [smallRead, smallRead]) [97] smallFile.bytes [smallRead, smallRead]
      (.start (fun _ => 0) [] 0#64)) ∧
    (idealReads smallFile.bytes [smallRead, smallRead]).flatMap (·.bytes) <+: smallFile.bytes := by
  obtain ⟨hiff, hprefix⟩ := fileProxy_delivers_iff smallHost true (fun _ => some 0) (fun _ => 0)
    (show (0 : Byte) ∉ [97] by decide) (show smallHost.files [97] = some smallFile from rfl)
    [smallRead, smallRead] (by decide)
  refine ⟨hiff.mpr ⟨rfl, fun k r hr => ⟨rfl, rfl, ?_⟩⟩, hprefix⟩
  have hitems : ∀ r ∈ idealReads smallFile.bytes [smallRead, smallRead], r.items < 2 ^ 31 := by
    decide
  exact hitems r (List.mem_of_getElem? hr)

end Small

end KeystoneSdk
