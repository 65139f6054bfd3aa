/-
The backing store for encrypted pages (`edge_wrapper.cpp`, with tracing off).

The enclave evicts pages into `pages_store`, a `std::map` in the host, and
fetches them back through a wrapped return.

* `PagesAt` — a page with its address, as the bytes of the structure;
* `returned_setupWrappedRet` — what the enclave finds behind a wrapped return;
* `storeContent`, `getHostContent` — the two handlers;
* `storeAfter_eq` — after any requests the store holds the first page of each
  address;
* **`readYourWrites_iff`** — every fetch returns the page stored last iff every
  fetched address was stored and its first page is its last.
-/
import KeystoneSdk.EdgeCall

open ByteMemory AccessLog

namespace KeystoneSdk

/-! ### Wrapped returns -/

/-- The first structure of the shared region, where a call is placed. -/
def EdgeGlobals.buffer (g : EdgeGlobals) : EdgeCallPtr := g.sharedStart

/-- What the enclave finds after a call: the data behind the `edge_data_t` that
the return points to, if the status is `CALL_STATUS_OK`. -/
def EdgeGlobals.returned (g : EdgeGlobals) (m : Mem) : Option (List Byte) :=
  if readLE64 m g.buffer.callStatus ≠ callStatusOk then none
  else do
    let header ← g.edgeCallGetPtrFromOffset (readLE64 m g.buffer.callRetOffset)
      (readLE64 m g.buffer.callRetSize)
    let data ← g.edgeCallGetPtrFromOffset (readLE64 m header) (readLE64 m (header + 16#64))
    return readBytes m data (readLE64 m (header + 16#64)).toNat

namespace EdgeGlobals

/-- The shared region ends below the top of the address space. -/
def NoWrap (g : EdgeGlobals) : Prop := g.sharedStart.toNat + g.sharedLen.toNat < 2 ^ 64

theorem sharedStart_add (g : EdgeGlobals) (k : ℕ) :
    g.sharedStart + BitVec.ofNat 64 k = BitVec.ofNat 64 (g.sharedStart.toNat + k) := by
  rw [BitVec.ofNat_add, BitVec.ofNat_toNat, BitVec.setWidth_eq]

/-- An offset and a size inside the region are turned into a pointer. -/
theorem edgeCallGetPtrFromOffset_inside {g : EdgeGlobals} (hg : g.NoWrap) {k n : ℕ}
    (h : k + n ≤ g.sharedLen.toNat) :
    g.edgeCallGetPtrFromOffset (BitVec.ofNat 64 k) (BitVec.ofNat 64 n) =
      some (BitVec.ofNat 64 (g.sharedStart.toNat + k)) := by
  unfold NoWrap at hg
  have hk : (BitVec.ofNat 64 k).toNat = k := Nat.mod_eq_of_lt (by omega)
  have hn : (BitVec.ofNat 64 n).toNat = n := Nat.mod_eq_of_lt (by omega)
  have hmax : uintptrMax.toNat = 2 ^ 64 - 1 := BitVec.toNat_allOnes
  have hend : (g.sharedStart + BitVec.ofNat 64 k).toNat = g.sharedStart.toNat + k := by
    rw [BitVec.toNat_add, hk, Nat.mod_eq_of_lt (by omega)]
  have hoffset : ¬ (BitVec.ofNat 64 k > uintptrMax - g.sharedStart ∨
      BitVec.ofNat 64 k > g.sharedLen) := by
    rw [not_or, gt_iff_lt, gt_iff_lt, BitVec.lt_def, BitVec.lt_def, BitVec.toNat_sub, hk, hmax]
    omega
  have hsize : ¬ (BitVec.ofNat 64 n > uintptrMax - (g.sharedStart + BitVec.ofNat 64 k) ∨
      BitVec.ofNat 64 n > g.sharedLen - BitVec.ofNat 64 k) := by
    rw [not_or, gt_iff_lt, gt_iff_lt, BitVec.lt_def, BitVec.lt_def, BitVec.toNat_sub,
      BitVec.toNat_sub, hend, hk, hn, hmax]
    omega
  rw [edgeCallGetPtrFromOffset, if_neg hoffset, if_neg hsize, sharedStart_add]

/-- A pointer into the region is turned into its offset. -/
theorem edgeCallGetOffsetFromPtr_inside {g : EdgeGlobals} (hg : g.NoWrap) {k n : ℕ}
    (h : k + n ≤ g.sharedLen.toNat) :
    g.edgeCallGetOffsetFromPtr (g.sharedStart + BitVec.ofNat 64 k) (BitVec.ofNat 64 n) =
      .ok (BitVec.ofNat 64 k) := by
  unfold NoWrap at hg
  have hn : (BitVec.ofNat 64 n).toNat = n := Nat.mod_eq_of_lt (by omega)
  have hmax : uintptrMax.toNat = 2 ^ 64 - 1 := BitVec.toNat_allOnes
  have hstart : (g.sharedStart + BitVec.ofNat 64 k).toNat = g.sharedStart.toNat + k := by
    rw [BitVec.toNat_add, BitVec.toNat_ofNat, Nat.mod_eq_of_lt (show k < 2 ^ 64 by omega),
      Nat.mod_eq_of_lt (by omega)]
  have hend : (g.sharedStart + g.sharedLen).toNat = g.sharedStart.toNat + g.sharedLen.toNat := by
    rw [BitVec.toNat_add, Nat.mod_eq_of_lt (by omega)]
  have hvalid : g.edgeCallCheckPtrValid (g.sharedStart + BitVec.ofNat 64 k) (BitVec.ofNat 64 n) =
      0 := by
    rw [edgeCallCheckPtrValid, if_neg, if_neg, if_neg]
    · rw [gt_iff_lt, BitVec.lt_def, hend, BitVec.toNat_add, hstart, hn]
      omega
    · rw [gt_iff_lt, BitVec.lt_def, BitVec.toNat_sub, hstart, hn, hmax]
      omega
    · rw [not_or, gt_iff_lt, BitVec.lt_def, BitVec.lt_def, hstart, hend]
      omega
  simp only [edgeCallGetOffsetFromPtr, hvalid, ne_eq, not_true_eq_false, if_false]
  rw [BitVec.add_comm, BitVec.add_sub_cancel]

/-- The checks of a pointer into a region that does not wrap pass exactly if the
block lies in the region. -/
theorem edgeCallCheckPtrValid_iff {g : EdgeGlobals} (hg : g.NoWrap) (ptr dataLen : BitVec 64) :
    g.edgeCallCheckPtrValid ptr dataLen = 0 ↔
      g.sharedStart.toNat ≤ ptr.toNat ∧
        ptr.toNat + dataLen.toNat ≤ g.sharedStart.toNat + g.sharedLen.toNat := by
  unfold NoWrap at hg
  have hptr := ptr.isLt
  have hmax : uintptrMax.toNat = 2 ^ 64 - 1 := BitVec.toNat_allOnes
  have hend : (g.sharedStart + g.sharedLen).toNat = g.sharedStart.toNat + g.sharedLen.toNat := by
    rw [BitVec.toNat_add, Nat.mod_eq_of_lt (by omega)]
  -- the three tests in numbers; the last sum is computed where the one before has passed
  have hstarts : (ptr > g.sharedStart + g.sharedLen ∨ ptr < g.sharedStart) ↔
      ¬ (g.sharedStart.toNat ≤ ptr.toNat ∧
        ptr.toNat ≤ g.sharedStart.toNat + g.sharedLen.toNat) := by
    rw [gt_iff_lt, BitVec.lt_def, BitVec.lt_def, hend]
    omega
  have hwraps : dataLen > uintptrMax - ptr ↔ 2 ^ 64 ≤ ptr.toNat + dataLen.toNat := by
    rw [gt_iff_lt, BitVec.lt_def, BitVec.toNat_sub, hmax]
    omega
  unfold edgeCallCheckPtrValid
  by_cases h1 : g.sharedStart.toNat ≤ ptr.toNat ∧
      ptr.toNat ≤ g.sharedStart.toNat + g.sharedLen.toNat
  · rw [if_neg fun h => hstarts.1 h h1]
    by_cases h2 : 2 ^ 64 ≤ ptr.toNat + dataLen.toNat
    · rw [if_pos (hwraps.2 h2)]
      omega
    · have hends : ptr + dataLen > g.sharedStart + g.sharedLen ↔
          g.sharedStart.toNat + g.sharedLen.toNat < ptr.toNat + dataLen.toNat := by
        rw [gt_iff_lt, BitVec.lt_def, hend, BitVec.toNat_add, Nat.mod_eq_of_lt (by omega)]
      rw [if_neg fun h => h2 (hwraps.1 h)]
      by_cases h3 : g.sharedStart.toNat + g.sharedLen.toNat < ptr.toNat + dataLen.toNat
      · rw [if_pos (hends.2 h3)]
        omega
      · rw [if_neg fun h => h3 (hends.1 h)]
        omega
  · rw [if_pos (hstarts.2 h1)]
    omega

/-- The memory a wrapped return of `n` bytes at `ptr` leaves when it copies the
header `d`. -/
def wrappedWith (g : EdgeGlobals) (m : Mem) (ptr : Addr) (n : ℕ) (d : EdgeData) : Mem :=
  let payload := writeBytes m g.wrappedDataPtr n fun i => m (ptr + BitVec.ofNat 64 i)
  let header := writeBytes payload g.edgeCallDataPtr sizeofEdgeData fun i => d.bytes.getD i 0
  writeLE64 (writeLE64 header g.buffer.callRetSize (BitVec.ofNat 64 sizeofEdgeData))
    g.buffer.callRetOffset (BitVec.ofNat 64 sizeofEdgeCall)

/-- The memory a wrapped return of `n` bytes at `ptr` leaves. -/
def wrappedMem (g : EdgeGlobals) (m : Mem) (ptr : Addr) (n : ℕ) (dataVa : BitVec 64) : Mem :=
  let payload := writeBytes m g.wrappedDataPtr n fun i => m (ptr + BitVec.ofNat 64 i)
  let header := writeBytes payload g.edgeCallDataPtr sizeofEdgeData fun i =>
    (EdgeData.bytes ⟨BitVec.ofNat 64 (sizeofEdgeCall + sizeofEdgeData), dataVa,
      BitVec.ofNat 64 n⟩).getD i 0
  writeLE64 (writeLE64 header g.buffer.callRetSize (BitVec.ofNat 64 sizeofEdgeData))
    g.buffer.callRetOffset (BitVec.ofNat 64 sizeofEdgeCall)

/-- The header a wrapped return copies: its `offset` is set if an `edge_data_t`
would fit where the payload is. -/
def wrapper (g : EdgeGlobals) (n : ℕ) (dataWrapper : EdgeData) : EdgeData where
  offset :=
    if sizeofEdgeCall + 2 * sizeofEdgeData ≤ g.sharedLen.toNat then
      BitVec.ofNat 64 (sizeofEdgeCall + sizeofEdgeData)
    else dataWrapper.offset
  dataVa := dataWrapper.dataVa
  size := BitVec.ofNat 64 n

/-- A wrapped return that fits succeeds, whatever the check on its header says. -/
theorem run_setupWrappedRet_of_fits {g : EdgeGlobals} (hg : g.NoWrap) {n : ℕ}
    (hfits : sizeofEdgeCall + sizeofEdgeData + n ≤ g.sharedLen.toNat) (ptr : Addr)
    (dataWrapper : EdgeData) (s : Touched) :
    ∃ reads writes, (g.edgeCallSetupWrappedRet g.buffer ptr (BitVec.ofNat 64 n) dataWrapper).run s =
      (0, ⟨g.wrappedWith s.mem ptr n (g.wrapper n dataWrapper), reads, writes⟩) := by
  have hlen := g.sharedLen.isLt
  have hsize : (BitVec.ofNat 64 n).toNat = n := Nat.mod_eq_of_lt (by omega)
  have hheader : g.edgeCallGetOffsetFromPtr g.edgeCallDataPtr (BitVec.ofNat 64 sizeofEdgeData) =
      .ok (BitVec.ofNat 64 sizeofEdgeCall) := edgeCallGetOffsetFromPtr_inside hg (by omega)
  by_cases hroom : sizeofEdgeCall + 2 * sizeofEdgeData ≤ g.sharedLen.toNat
  · have hpayload : g.edgeCallGetOffsetFromPtr g.wrappedDataPtr (BitVec.ofNat 64 sizeofEdgeData) =
        .ok (BitVec.ofNat 64 (sizeofEdgeCall + sizeofEdgeData)) :=
      edgeCallGetOffsetFromPtr_inside hg (by omega)
    simp only [edgeCallSetupWrappedRet, hpayload, run_bind, run_copyBytes, run_storeBytes,
      run_storeWord, run_storeRetOffset, hheader, hsize, wrapper, if_pos hroom]
    exact ⟨_, _, rfl⟩
  · -- the check fails, and the field keeps what the local variable held
    obtain ⟨valid, hpayload⟩ : ∃ valid, g.edgeCallGetOffsetFromPtr g.wrappedDataPtr
        (BitVec.ofNat 64 sizeofEdgeData) = .error valid := by
      have hinvalid : g.edgeCallCheckPtrValid g.wrappedDataPtr (BitVec.ofNat 64 sizeofEdgeData) ≠
          0 := by
        unfold NoWrap at hg
        have hptr : g.wrappedDataPtr.toNat =
            g.sharedStart.toNat + (sizeofEdgeCall + sizeofEdgeData) := by
          rw [wrappedDataPtr, sharedStart_add, BitVec.toNat_ofNat, Nat.mod_eq_of_lt (by omega)]
        rw [ne_eq, edgeCallCheckPtrValid_iff hg, hptr,
          show (BitVec.ofNat 64 sizeofEdgeData).toNat = sizeofEdgeData from rfl]
        omega
      exact ⟨_, if_pos hinvalid⟩
    simp only [edgeCallSetupWrappedRet, hpayload, run_bind, run_copyBytes, run_storeBytes,
      run_storeWord, run_storeRetOffset, hheader, hsize, wrapper, if_neg hroom]
    exact ⟨_, _, rfl⟩

/-- A wrapped return that fits succeeds.  (A payload shorter than an
`edge_data_t` could fit where the check of its offset fails.) -/
theorem run_setupWrappedRet {g : EdgeGlobals} (hg : g.NoWrap) {n : ℕ}
    (hfits : sizeofEdgeCall + sizeofEdgeData + n ≤ g.sharedLen.toNat) (hn : sizeofEdgeData ≤ n)
    (ptr : Addr) (dataWrapper : EdgeData) (s : Touched) :
    ∃ reads writes, (g.edgeCallSetupWrappedRet g.buffer ptr (BitVec.ofNat 64 n) dataWrapper).run s =
      (0, ⟨g.wrappedMem s.mem ptr n dataWrapper.dataVa, reads, writes⟩) := by
  obtain ⟨reads, writes, hrun⟩ := run_setupWrappedRet_of_fits hg hfits ptr dataWrapper s
  have hroom : sizeofEdgeCall + 2 * sizeofEdgeData ≤ g.sharedLen.toNat := by omega
  rw [wrapper, if_pos hroom] at hrun
  exact ⟨reads, writes, hrun⟩

/-- The bytes of the first and the last word of an `edge_data_t`. -/
theorem edgeData_bytes_getD (d : EdgeData) {i : ℕ} (hi : i < 8) :
    d.bytes.getD i 0 = byteOf d.offset i ∧ d.bytes.getD (16 + i) 0 = byteOf d.size i := by
  constructor
  · simp [EdgeData.bytes, leBytes, List.getD_eq_getElem?_getD, List.getElem?_append, hi]
  · have h16 : 16 + i - 8 - 8 = i := by omega
    have h8 : ¬ 16 + i - 8 < 8 := by omega
    have h0 : ¬ 16 + i < 8 := by omega
    simp [EdgeData.bytes, leBytes, List.getD_eq_getElem?_getD, List.getElem?_append, h16, h8, h0, hi]

/-- What a wrapped return has written, and what it has not. -/
structure Wrapped (g : EdgeGlobals) (m m' : Mem) (ptr : Addr) (n : ℕ) (d : EdgeData) : Prop where
  retOffset : readLE64 m' g.buffer.callRetOffset = BitVec.ofNat 64 sizeofEdgeCall
  retSize : readLE64 m' g.buffer.callRetSize = BitVec.ofNat 64 sizeofEdgeData
  offset : readLE64 m' g.edgeCallDataPtr = d.offset
  size : readLE64 m' (g.edgeCallDataPtr + 16#64) = d.size
  payload : readBytes m' g.wrappedDataPtr n = readBytes m ptr n
  frame : ∀ o, o < g.sharedLen.toNat → o < 32 ∨ sizeofEdgeCall + sizeofEdgeData + n ≤ o →
    m' (g.sharedStart + BitVec.ofNat 64 o) = m (g.sharedStart + BitVec.ofNat 64 o)

theorem wrapped_wrappedWith {g : EdgeGlobals} (hg : g.NoWrap) {n : ℕ}
    (hfits : sizeofEdgeCall + sizeofEdgeData + n ≤ g.sharedLen.toNat) (m : Mem) (ptr : Addr)
    (d : EdgeData) : g.Wrapped m (g.wrappedWith m ptr n d) ptr n d := by
  have hlen := g.sharedLen.isLt
  unfold NoWrap at hg
  unfold sizeofEdgeCall sizeofEdgeData at hfits
  set S := g.sharedStart.toNat with hS
  -- the places written, as natural numbers
  have hD : g.wrappedDataPtr = BitVec.ofNat 64 (S + 72) := g.sharedStart_add 72
  have hH : g.edgeCallDataPtr = BitVec.ofNat 64 (S + 48) := g.sharedStart_add 48
  have hRS : g.buffer.callRetSize = BitVec.ofNat 64 (S + 40) := g.sharedStart_add 40
  have hRO : g.buffer.callRetOffset = BitVec.ofNat 64 (S + 32) := g.sharedStart_add 32
  have h16 : BitVec.ofNat 64 (S + 48) + 16#64 = BitVec.ofNat 64 (S + 48 + 16) :=
    (BitVec.ofNat_add _ _).symm
  set f : ℕ → Byte := fun i => m (ptr + BitVec.ofNat 64 i)
  set m₁ := writeBytes m (BitVec.ofNat 64 (S + 72)) n f with hm₁
  set m₂ := writeBytes m₁ (BitVec.ofNat 64 (S + 48)) 24 fun i => d.bytes.getD i 0 with hm₂
  set m₃ := writeLE64 m₂ (BitVec.ofNat 64 (S + 40)) 24#64 with hm₃
  set m₄ := writeLE64 m₃ (BitVec.ofNat 64 (S + 32)) 48#64 with hm₄
  have hmem : g.wrappedWith m ptr n d = m₄ := by
    rw [wrappedWith, hRO, hRS, hH, hD]
    rfl
  -- a word above the fields written last reads as it did before them
  have habove : ∀ x, S + 48 ≤ x → x + 8 ≤ 2 ^ 64 →
      readLE64 m₄ (BitVec.ofNat 64 x) = readLE64 m₂ (BitVec.ofNat 64 x) := by
    intro x hx hx'
    rw [hm₄, writeLE64, readLE64_writeBytes_disjoint _ _ (by omega) hx' (by omega), hm₃, writeLE64,
      readLE64_writeBytes_disjoint _ _ (by omega) hx' (by omega)]
  rw [hmem]
  constructor
  · rw [hRO]
    exact readLE64_writeLE64_same ..
  · rw [hRS, hm₄, writeLE64, readLE64_writeBytes_disjoint _ _ (by omega) (by omega) (by omega)]
    exact readLE64_writeLE64_same ..
  · rw [hH, habove _ (by omega) (by omega), hm₂]
    refine readLE64_writeBytes_inside m₁ (o := 0) (by omega) (by omega) fun i hi => ?_
    rw [Nat.zero_add]
    exact (edgeData_bytes_getD d hi).1
  · rw [hH, h16, habove _ (by omega) (by omega), hm₂]
    exact readLE64_writeBytes_inside m₁ (by omega) (by omega) fun i hi =>
      (edgeData_bytes_getD d hi).2
  · rw [hD, hm₄, writeLE64, readBytes_writeBytes_disjoint _ _ (by omega) (by omega) (by omega), hm₃,
      writeLE64, readBytes_writeBytes_disjoint _ _ (by omega) (by omega) (by omega), hm₂,
      readBytes_writeBytes_disjoint _ _ (by omega) (by omega) (by omega), hm₁,
      readBytes_writeBytes_same _ _ _ (by omega)]
    rfl
  · intro o ho hout
    unfold sizeofEdgeCall sizeofEdgeData at hout
    rw [sharedStart_add, ← hS, hm₄, writeLE64, writeBytes_ofNat _ _ (by omega) (by omega),
      if_neg (by omega), hm₃, writeLE64, writeBytes_ofNat _ _ (by omega) (by omega),
      if_neg (by omega), hm₂, writeBytes_ofNat _ _ (by omega) (by omega), if_neg (by omega), hm₁,
      writeBytes_ofNat _ _ (by omega) (by omega), if_neg (by omega)]

/-- The enclave finds the payload of a wrapped return. -/
theorem returned_wrappedMem {g : EdgeGlobals} (hg : g.NoWrap) {n : ℕ}
    (hfits : sizeofEdgeCall + sizeofEdgeData + n ≤ g.sharedLen.toNat) (m : Mem) (ptr : Addr)
    (dataVa : BitVec 64) :
    g.returned (writeLE64 (g.wrappedMem m ptr n dataVa) g.buffer.callStatus callStatusOk) =
      some (readBytes m ptr n) := by
  have hlen := g.sharedLen.isLt
  have hwrap : g.sharedStart.toNat + g.sharedLen.toNat < 2 ^ 64 := hg
  have hsize : (BitVec.ofNat 64 n).toNat = n := Nat.mod_eq_of_lt (by omega)
  have hwrapped : g.Wrapped m (g.wrappedMem m ptr n dataVa) ptr n
      ⟨BitVec.ofNat 64 (sizeofEdgeCall + sizeofEdgeData), dataVa, BitVec.ofNat 64 n⟩ :=
    wrapped_wrappedWith hg hfits m ptr _
  unfold sizeofEdgeCall sizeofEdgeData at hfits
  set S := g.sharedStart.toNat with hS
  have hD : g.wrappedDataPtr = BitVec.ofNat 64 (S + 72) := g.sharedStart_add 72
  have hH : g.edgeCallDataPtr = BitVec.ofNat 64 (S + 48) := g.sharedStart_add 48
  have hRS : g.buffer.callRetSize = BitVec.ofNat 64 (S + 40) := g.sharedStart_add 40
  have hRO : g.buffer.callRetOffset = BitVec.ofNat 64 (S + 32) := g.sharedStart_add 32
  have hST : g.buffer.callStatus = BitVec.ofNat 64 (S + 24) := g.sharedStart_add 24
  have h16 : BitVec.ofNat 64 (S + 48) + 16#64 = BitVec.ofNat 64 (S + 48 + 16) :=
    (BitVec.ofNat_add _ _).symm
  obtain ⟨hretOffset, hretSize, hoffset, hdataSize, hpayload, -⟩ := hwrapped
  rw [hRO] at hretOffset
  rw [hRS] at hretSize
  rw [hH] at hoffset
  rw [hH, h16] at hdataSize
  rw [hD] at hpayload
  -- the status is stored below everything the reader looks at
  have habove : ∀ x, S + 32 ≤ x → x + 8 ≤ 2 ^ 64 →
      readLE64 (writeLE64 (g.wrappedMem m ptr n dataVa) (BitVec.ofNat 64 (S + 24)) callStatusOk)
        (BitVec.ofNat 64 x) = readLE64 (g.wrappedMem m ptr n dataVa) (BitVec.ofNat 64 x) := by
    intro x hx hx'
    rw [writeLE64, readLE64_writeBytes_disjoint _ _ (by omega) hx' (by omega)]
  have hheaderPtr : g.edgeCallGetPtrFromOffset (BitVec.ofNat 64 sizeofEdgeCall)
      (BitVec.ofNat 64 sizeofEdgeData) = some (BitVec.ofNat 64 (S + 48)) :=
    edgeCallGetPtrFromOffset_inside hg (k := 48) (n := 24) (by omega)
  have hdataPtr : g.edgeCallGetPtrFromOffset (BitVec.ofNat 64 (sizeofEdgeCall + sizeofEdgeData))
      (BitVec.ofNat 64 n) = some (BitVec.ofNat 64 (S + 72)) :=
    edgeCallGetPtrFromOffset_inside hg (k := 72) (by omega)
  rw [returned, hST, hRO, hRS, readLE64_writeLE64_same, if_neg (not_not.mpr rfl),
    habove (S + 32) (by omega) (by omega), habove (S + 40) (by omega) (by omega), hretOffset,
    hretSize, hheaderPtr, Option.bind_eq_bind, Option.bind_some, h16,
    habove (S + 48) (by omega) (by omega), habove (S + 48 + 16) (by omega) (by omega), hoffset,
    hdataSize, hdataPtr, Option.bind_some, hsize, writeLE64,
    readBytes_writeBytes_disjoint _ _ (by omega) (by omega) (by omega), hpayload]
  rfl

end EdgeGlobals

/-! ### Pages -/

/-- `pages_at`. -/
@[ext] structure PagesAt where
  address : BitVec 64
  dummy : BitVec 64
  data : List Byte
  hmac : List Byte
  data_length : data.length = 4096
  hmac_length : hmac.length = 32

namespace PagesAt

def sizeof : ℕ := 4144

def bytes (p : PagesAt) : List Byte := leBytes p.address ++ leBytes p.dummy ++ p.data ++ p.hmac

/-- The page whose bytes lie at `a`. -/
def ofMem (m : Mem) (a : Addr) : PagesAt where
  address := readLE64 m a
  dummy := readLE64 m (a + 8#64)
  data := readBytes m (a + 16#64) 4096
  hmac := readBytes m (a + 4112#64) 32
  data_length := readBytes_length ..
  hmac_length := readBytes_length ..

theorem bytes_length (p : PagesAt) : p.bytes.length = sizeof := by
  rw [bytes, List.length_append, List.length_append, List.length_append, leBytes_length,
    leBytes_length, p.data_length, p.hmac_length]
  rfl

theorem bytes_injective : Function.Injective bytes := by
  intro p q h
  unfold bytes at h
  obtain ⟨h, hhmac⟩ := List.append_inj' h (by rw [p.hmac_length, q.hmac_length])
  obtain ⟨h, hdata⟩ := List.append_inj' h (by rw [p.data_length, q.data_length])
  obtain ⟨haddress, hdummy⟩ := List.append_inj' h (by rw [leBytes_length, leBytes_length])
  exact PagesAt.ext (leBytes_injective haddress) (leBytes_injective hdummy) hdata hhmac

end PagesAt

/-- `pages_store`, a `std::map` from addresses to pages. -/
abbrev PagesStore := BitVec 64 → Option PagesAt

/-- `std::map::insert`: a key that is present keeps its value. -/
def PagesStore.insert (pages : PagesStore) (key : BitVec 64) (p : PagesAt) : PagesStore :=
  if (pages key).isSome then pages else Function.update pages key (some p)

/-! ### The handlers -/

/-- What the handlers find when they run: the shared region, their local
variables (`frame` is the address of `p`), and what `end()` points to. -/
structure HostFrame where
  g : EdgeGlobals
  frame : Addr
  dataWrapper : EdgeData
  endPage : PagesAt

namespace HostFrame

/-- `store_content_to_utm_enc_pfh`. -/
def storeContent (h : HostFrame) (pages : PagesStore) : TouchM PagesStore := do
  let some callArgs ← h.g.edgeCallArgsPtr h.g.buffer
    | storeWord h.g.buffer.callStatus callStatusBadOffset
      return pages
  copyBytes h.frame callArgs PagesAt.sizeof
  let p := PagesAt.ofMem (← get).mem h.frame
  let pages := pages.insert p.address p
  storeWord h.g.buffer.callStatus callStatusOk
  return pages

/-- `get_host_content_from_utm_wrapper_enc_pfh`. -/
def getHostContent (h : HostFrame) (pages : PagesStore) : TouchM Unit := do
  let some callArgs ← h.g.edgeCallArgsPtr h.g.buffer
    | storeWord h.g.buffer.callStatus callStatusBadOffset
  let sourcePageVaddr ← loadWord callArgs
  let p := (pages sourcePageVaddr).getD h.endPage
  storeBytes h.frame PagesAt.sizeof fun i => p.bytes.getD i 0
  let setup ← h.g.edgeCallSetupWrappedRet h.g.buffer h.frame (BitVec.ofNat 64 PagesAt.sizeof)
    h.dataWrapper
  if setup ≠ 0 then
    storeWord h.g.buffer.callStatus callStatusBadPtr
  else
    storeWord h.g.buffer.callStatus callStatusOk

end HostFrame

/-- A request: the handler called, and the memory the enclave calls it with. -/
inductive PageRequest
  | store (m : Mem)
  | fetch (m : Mem)

namespace PageRequest

def mem : PageRequest → Mem
  | store m => m
  | fetch m => m

/-- Serve a request: the store, and the memory, afterwards. -/
def serve (h : HostFrame) (pages : PagesStore) : PageRequest → PagesStore × Mem
  | store m =>
    (((h.storeContent pages).run ⟨m, [], []⟩).1, ((h.storeContent pages).run ⟨m, [], []⟩).2.mem)
  | fetch m => (pages, ((h.getHostContent pages).run ⟨m, [], []⟩).2.mem)

/-- The store after a sequence of requests. -/
def storeAfter (h : HostFrame) (requests : List PageRequest) : PagesStore :=
  requests.foldl (fun pages r => (r.serve h pages).1) fun _ => none

/-- The checked argument pointer of a request. -/
def args (h : HostFrame) (r : PageRequest) : Option Addr :=
  h.g.edgeCallGetPtrFromOffset (readLE64 r.mem h.g.buffer.callArgOffset)
    (readLE64 r.mem h.g.buffer.callArgSize)

/-- The page a request asks to store. -/
def stored (h : HostFrame) : PageRequest → Option PagesAt
  | store m => ((store m).args h).map (PagesAt.ofMem m)
  | fetch _ => none

/-- The address a request fetches. -/
def fetched (h : HostFrame) : PageRequest → Option (BitVec 64)
  | store _ => none
  | fetch m => ((fetch m).args h).map (readLE64 m)

/-- The first page of address `a` that is stored. -/
def firstStored (h : HostFrame) (a : BitVec 64) (requests : List PageRequest) : Option PagesAt :=
  (requests.filterMap (stored h)).find? (·.address = a)

/-- The page of address `a` stored most recently. -/
def lastStored (h : HostFrame) (a : BitVec 64) (requests : List PageRequest) : Option PagesAt :=
  (requests.filterMap (stored h)).reverse.find? (·.address = a)

/-- Every fetch of an address returns the page of it stored most recently, or
an error status if there is none. -/
def ReadYourWrites (h : HostFrame) (requests : List PageRequest) : Prop :=
  ∀ before r after a, requests = before ++ r :: after → r.fetched h = some a →
    (∀ p, lastStored h a before = some p →
      h.g.returned (r.serve h (storeAfter h before)).2 = some p.bytes) ∧
    (lastStored h a before = none →
      readLE64 (r.serve h (storeAfter h before)).2 h.g.buffer.callStatus ≠ callStatusOk)

/-! ### What the handlers do -/

/-- A page depends on its 4144 bytes only. -/
theorem ofMem_congr {m m' : Mem} {a a' : Addr}
    (h : ∀ i, i < PagesAt.sizeof → m (a + BitVec.ofNat 64 i) = m' (a' + BitVec.ofNat 64 i)) :
    PagesAt.ofMem m a = PagesAt.ofMem m' a' := by
  have hfield : ∀ o i, o + i < PagesAt.sizeof →
      m (a + BitVec.ofNat 64 o + BitVec.ofNat 64 i) =
        m' (a' + BitVec.ofNat 64 o + BitVec.ofNat 64 i) := by
    intro o i hi
    rw [BitVec.add_assoc, BitVec.add_assoc, ← BitVec.ofNat_add, h _ hi]
  have hsize : PagesAt.sizeof = 4144 := rfl
  have haddress : readLE64 m a = readLE64 m' a' := readLE64_congr fun i hi => h i (by omega)
  have hdummy : readLE64 m (a + 8#64) = readLE64 m' (a' + 8#64) :=
    readLE64_congr fun i hi => hfield 8 i (by omega)
  have hblock : ∀ o n, o + n ≤ PagesAt.sizeof →
      readBytes m (a + BitVec.ofNat 64 o) n = readBytes m' (a' + BitVec.ofNat 64 o) n := by
    intro o n hn
    exact readBytes_congr fun i hi => hfield o i (by omega)
  have hdata := hblock 16 4096 (by decide)
  have hhmac := hblock 4112 32 (by decide)
  simp only [PagesAt.ofMem, haddress, hdummy, hdata, hhmac]

/-- A page copied to `p` is the page it was copied from. -/
theorem ofMem_copy (m : Mem) (a frame : Addr) :
    PagesAt.ofMem (writeBytes m frame PagesAt.sizeof fun i => m (a + BitVec.ofNat 64 i)) frame =
      PagesAt.ofMem m a :=
  ofMem_congr fun _ hi => writeBytes_inside m frame _ hi (by decide)

theorem run_args (h : HostFrame) (r : PageRequest) :
    (h.g.edgeCallArgsPtr h.g.buffer).run ⟨r.mem, [], []⟩ = (r.args h,
      ⟨r.mem, [(h.g.buffer.callArgOffset, 8), (h.g.buffer.callArgSize, 8)], []⟩) :=
  EdgeGlobals.run_edgeCallArgsPtr h.g h.g.buffer ⟨r.mem, [], []⟩

/-- A request leaves the store as it is, or inserts its page. -/
theorem serve_store (h : HostFrame) (pages : PagesStore) (r : PageRequest) :
    (r.serve h pages).1 =
      match r.stored h with
      | none => pages
      | some p => pages.insert p.address p := by
  cases r with
  | fetch m => rfl
  | store m =>
    have hargs : (h.g.edgeCallArgsPtr h.g.buffer).run ⟨m, [], []⟩ = ((store m).args h,
        ⟨m, [(h.g.buffer.callArgOffset, 8), (h.g.buffer.callArgSize, 8)], []⟩) :=
      run_args h (store m)
    rw [serve, HostFrame.storeContent, run_bind_of hargs, stored]
    rcases (store m).args h with _ | a
    · rfl
    · dsimp only
      rw [run_bind_of (run_copyBytes ..)]
      show pages.insert (PagesAt.ofMem _ h.frame).address (PagesAt.ofMem _ h.frame) = _
      rw [ofMem_copy]
      rfl

theorem map_getD_range {bytes : List Byte} {n : ℕ} (h : bytes.length = n) :
    (List.range n).map (fun i => bytes.getD i 0) = bytes := by
  refine List.ext_getElem ?_ fun i h₁ h₂ => ?_
  · rw [List.length_map, List.length_range, h]
  · rw [List.getElem_map, List.getElem_range, List.getD_eq_getElem _ _ h₂]

theorem insert_apply (pages : PagesStore) (p : PagesAt) (a : BitVec 64) :
    pages.insert p.address p a = (pages a).or (if p.address = a then some p else none) := by
  rw [PagesStore.insert]
  by_cases hkey : p.address = a
  · subst hkey
    rcases hpage : pages p.address with _ | q
    · simp
    · simp [hpage]
  · rw [if_neg hkey, Option.or_none]
    split
    · rfl
    · exact Function.update_of_ne (Ne.symm hkey) _ _

theorem firstStored_cons (h : HostFrame) (a : BitVec 64) (r : PageRequest)
    (requests : List PageRequest) :
    firstStored h a (r :: requests) =
      ((r.stored h).filter (·.address = a)).or (firstStored h a requests) := by
  unfold firstStored
  rcases hstored : r.stored h with _ | p
  · rw [List.filterMap_cons_none hstored]
    rfl
  · rw [List.filterMap_cons_some hstored, List.find?_cons, Option.filter_some]
    rcases decide (p.address = a) with _ | _
    · rfl
    · rfl

/-- After any requests the store holds the first page stored of each address. -/
theorem storeAfter_eq (h : HostFrame) (requests : List PageRequest) (a : BitVec 64) :
    storeAfter h requests a = firstStored h a requests := by
  have hrun : ∀ pages : PagesStore,
      requests.foldl (fun pages r => (r.serve h pages).1) pages a =
        (pages a).or (firstStored h a requests) := by
    induction requests with
    | nil => exact fun pages => (Option.or_none ..).symm
    | cons r rest ih =>
      intro pages
      rw [List.foldl_cons, ih, firstStored_cons, serve_store]
      rcases hstored : r.stored h with _ | p
      · rfl
      · show ((pages.insert p.address p) a).or (firstStored h a rest) = _
        rw [insert_apply, Option.or_assoc, Option.filter_some]
        simp only [decide_eq_true_eq]
  rw [storeAfter, hrun]
  rfl

/-- A fetch that is accepted returns the page found, or what `end()` points to. -/
theorem returned_serve_fetch {h : HostFrame} (hg : h.g.NoWrap)
    (hfits : sizeofEdgeCall + sizeofEdgeData + PagesAt.sizeof ≤ h.g.sharedLen.toNat)
    (pages : PagesStore) {m : Mem} {a : BitVec 64} (hfetch : (fetch m).fetched h = some a) :
    h.g.returned ((fetch m).serve h pages).2 = some ((pages a).getD h.endPage).bytes := by
  obtain ⟨ptr, hptr, rfl⟩ := Option.map_eq_some_iff.mp hfetch
  set p := (pages (readLE64 m ptr)).getD h.endPage with hp
  set m₁ := writeBytes m h.frame PagesAt.sizeof fun i => p.bytes.getD i 0 with hm₁
  have hargs : (h.g.edgeCallArgsPtr h.g.buffer).run ⟨m, [], []⟩ = (some ptr,
      ⟨m, [(h.g.buffer.callArgOffset, 8), (h.g.buffer.callArgSize, 8)], []⟩) := by
    rw [← hptr]
    exact run_args h (fetch m)
  obtain ⟨reads, writes, hsetup⟩ := EdgeGlobals.run_setupWrappedRet hg hfits (by decide) h.frame
    h.dataWrapper ⟨m₁, [(h.g.buffer.callArgOffset, 8), (h.g.buffer.callArgSize, 8)] ++ [(ptr, 8)],
      [] ++ [(h.frame, PagesAt.sizeof)]⟩
  have hserve : ((fetch m).serve h pages).2 = writeLE64
      (h.g.wrappedMem m₁ h.frame PagesAt.sizeof h.dataWrapper.dataVa) h.g.buffer.callStatus
      callStatusOk := by
    rw [serve, HostFrame.getHostContent, run_bind_of hargs]
    dsimp only
    rw [run_bind_of (run_loadWord ..), run_bind_of (run_storeBytes ..), run_bind_of hsetup,
      if_neg (not_not.mpr rfl), run_storeWord]
  rw [hserve, EdgeGlobals.returned_wrappedMem hg hfits, hm₁,
    readBytes_writeBytes_same _ _ _ (by decide), map_getD_range p.bytes_length]

/-- Data is returned with `CALL_STATUS_OK` only. -/
theorem callStatus_of_returned {g : EdgeGlobals} {m : Mem} {bytes : List Byte}
    (h : g.returned m = some bytes) : readLE64 m g.buffer.callStatus = callStatusOk := by
  unfold EdgeGlobals.returned at h
  split at h
  · cases h
  · rename_i hok
    exact not_not.mp hok

/-- Only a fetch that is accepted has an address. -/
theorem eq_fetch_of_fetched {h : HostFrame} {r : PageRequest} {a : BitVec 64}
    (hr : r.fetched h = some a) : ∃ m, r = fetch m := by
  cases r with
  | store m => cases hr
  | fetch m => exact ⟨m, rfl⟩

theorem firstStored_eq_none_iff (h : HostFrame) (a : BitVec 64) (requests : List PageRequest) :
    firstStored h a requests = none ↔ lastStored h a requests = none := by
  rw [firstStored, lastStored, List.find?_eq_none, List.find?_eq_none]
  simp only [List.mem_reverse]

/-- **The store is read-your-writes exactly as long as no page is replaced**:
every fetched address was stored, and the first page stored of it is the last. -/
theorem readYourWrites_iff (h : HostFrame) (hg : h.g.NoWrap)
    (hfits : sizeofEdgeCall + sizeofEdgeData + PagesAt.sizeof ≤ h.g.sharedLen.toNat)
    (requests : List PageRequest) :
    ReadYourWrites h requests ↔
      ∀ before r after a, requests = before ++ r :: after → r.fetched h = some a →
        ∃ p, firstStored h a before = some p ∧ lastStored h a before = some p := by
  -- what a fetch returns, whatever came before it
  have hreturned : ∀ before (r : PageRequest) a, r.fetched h = some a →
      h.g.returned (r.serve h (storeAfter h before)).2 =
        some ((firstStored h a before).getD h.endPage).bytes := by
    intro before r a hr
    obtain ⟨m, rfl⟩ := eq_fetch_of_fetched hr
    rw [returned_serve_fetch hg hfits _ hr, storeAfter_eq]
  constructor
  · intro hryw before r after a hsplit hr
    obtain ⟨hsome, hnone⟩ := hryw before r after a hsplit hr
    rcases hlast : lastStored h a before with _ | p
    · exact absurd (callStatus_of_returned (hreturned before r a hr)) (hnone hlast)
    · have hpage := hsome p hlast
      rw [hreturned before r a hr] at hpage
      obtain ⟨q, hfirst⟩ : ∃ q, firstStored h a before = some q := by
        refine Option.ne_none_iff_exists'.mp fun hfirst => ?_
        rw [(firstStored_eq_none_iff h a before).mp hfirst] at hlast
        cases hlast
      rw [hfirst, Option.getD_some] at hpage
      rw [PagesAt.bytes_injective (Option.some.inj hpage)] at hfirst
      exact ⟨p, hfirst, rfl⟩
  · intro hstored before r after a hsplit hr
    obtain ⟨p, hfirst, hlast⟩ := hstored before r after a hsplit hr
    refine ⟨fun q hq => ?_, fun hq => ?_⟩
    · obtain rfl := Option.some.inj (hlast.symm.trans hq)
      rw [hreturned before r a hr, hfirst, Option.getD_some]
    · rw [hlast] at hq
      cases hq

/-- A shared region of three pages, and a local `p` above it. -/
def smallFrame : HostFrame :=
  ⟨⟨0x1000#64, 0x3000#64⟩, 0x8000#64, ⟨0#64, 0#64, 0#64⟩, PagesAt.ofMem (fun _ => 0) 0#64⟩

/-- A request at offset `0x100` for address `0x5000`; a page to store differs
in its `dummy`. -/
def smallArgs (dummy : Byte) : Mem := fun a =>
  if a = 0x1009#64 then 1 else if a = 0x1011#64 then 0x10 else if a = 0x1010#64 then 0x30
  else if a = 0x1101#64 then 0x50 else if a = 0x1108#64 then dummy else 0

theorem small_args (dummy : Byte) :
    (store (smallArgs dummy)).args smallFrame = some 0x1100#64 := by
  have hoffset : readLE64 (smallArgs dummy) (EdgeCallPtr.callArgOffset 0x1000#64) = 0x100#64 :=
    readLE64_eq_of_bytes fun i hi => by interval_cases i <;> rfl
  have hsize : readLE64 (smallArgs dummy) (EdgeCallPtr.callArgSize 0x1000#64) = 0x1030#64 :=
    readLE64_eq_of_bytes fun i hi => by interval_cases i <;> rfl
  have hbuffer : smallFrame.g.buffer = 0x1000#64 := rfl
  rw [args, mem, hbuffer, hoffset, hsize]
  decide

theorem small_address (dummy : Byte) : readLE64 (smallArgs dummy) 0x1100#64 = 0x5000#64 :=
  readLE64_eq_of_bytes fun i hi => by interval_cases i <;> rfl

theorem small_fetched : (fetch (smallArgs 0)).fetched smallFrame = some 0x5000#64 := by
  rw [fetched, show (fetch (smallArgs 0)).args smallFrame = some 0x1100#64 from small_args 0,
    Option.map_some, small_address]

theorem small_stored (dummy : Byte) :
    (store (smallArgs dummy)).stored smallFrame =
      some (PagesAt.ofMem (smallArgs dummy) 0x1100#64) := by
  rw [stored, small_args, Option.map_some]

theorem small_firstStored (dummy : Byte) (requests : List PageRequest) :
    firstStored smallFrame 0x5000#64 (store (smallArgs dummy) :: requests) =
      some (PagesAt.ofMem (smallArgs dummy) 0x1100#64) := by
  have haddress : (PagesAt.ofMem (smallArgs dummy) 0x1100#64).address = 0x5000#64 :=
    small_address dummy
  rw [firstStored_cons, small_stored, Option.filter_some, haddress,
    if_pos (decide_eq_true rfl), Option.some_or]

/-- Two pages of one address, and a fetch: the first page comes back. -/
theorem readYourWrites_stale :
    ¬ ReadYourWrites smallFrame [store (smallArgs 1), store (smallArgs 2), fetch (smallArgs 0)] := by
  intro hryw
  have hlast : lastStored smallFrame 0x5000#64 [store (smallArgs 1), store (smallArgs 2)] =
      some (PagesAt.ofMem (smallArgs 2) 0x1100#64) := by
    rw [lastStored, List.filterMap_cons_some (small_stored 1),
      List.filterMap_cons_some (small_stored 2)]
    exact List.find?_cons_of_pos (decide_eq_true (small_address 2))
  have hreturned := (hryw [store (smallArgs 1), store (smallArgs 2)] (fetch (smallArgs 0)) []
    0x5000#64 rfl small_fetched).1 _ hlast
  rw [returned_serve_fetch (by unfold EdgeGlobals.NoWrap; decide) (by decide) _ small_fetched,
    storeAfter_eq, small_firstStored, Option.getD_some] at hreturned
  have hdummy := congrArg PagesAt.dummy (PagesAt.bytes_injective (Option.some.inj hreturned))
  have : readLE64 (smallArgs 1) (0x1100#64 + 8#64) ≠ readLE64 (smallArgs 2) (0x1100#64 + 8#64) := by
    decide
  exact this hdummy

theorem readYourWrites_iff_small :
    ReadYourWrites smallFrame [store (smallArgs 1), fetch (smallArgs 0)] := by
  refine (readYourWrites_iff smallFrame (by unfold EdgeGlobals.NoWrap; decide) (by decide) _).mpr ?_
  intro before r after a hsplit hr
  rcases before with _ | ⟨r₁, before⟩
  · obtain ⟨rfl, -⟩ := List.cons.inj hsplit
    cases hr
  · obtain ⟨rfl, htail⟩ := List.cons.inj hsplit
    rcases before with _ | ⟨r₂, before⟩
    · obtain ⟨rfl, -⟩ := List.cons.inj htail
      obtain rfl := Option.some.inj (small_fetched.symm.trans hr)
      refine ⟨_, small_firstStored 1 [], ?_⟩
      rw [lastStored, List.filterMap_cons_some (small_stored 1)]
      exact List.find?_cons_of_pos (decide_eq_true (small_address 1))
    · obtain ⟨-, hnil⟩ := List.cons.inj htail
      cases before <;> cases hnil

end PageRequest

end KeystoneSdk
