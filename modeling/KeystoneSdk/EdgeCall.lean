/-
Edge calls (`edge_common.h`, `edge_call.c`): structures in the shared region,
and the checks that turn offsets into pointers and back.

* `EdgeGlobals` — `_shared_start` and `_shared_len`, with the checks on them;
* `edgeCallSetupWrappedRet` — a return value wrapped into an `edge_data_t`;
* **`setupWrappedRet_confined_iff`** — it stays inside the shared region iff
  the two headers and the payload fit.
-/
import KeystoneSdk.HostCommon
import KeystoneSdk.AccessLog

open ByteMemory AccessLog

namespace KeystoneSdk

/-! ### `edge_common.h` -/

def callStatusOk : BitVec 64 := 0#64
def callStatusBadCallId : BitVec 64 := 1#64
def callStatusBadOffset : BitVec 64 := 2#64
def callStatusBadPtr : BitVec 64 := 3#64
def callStatusSyscallFailed : BitVec 64 := 5#64

/-- `struct edge_data_t`. -/
structure EdgeData where
  offset : BitVec 64
  dataVa : BitVec 64
  size : BitVec 64

def EdgeData.bytes (d : EdgeData) : List Byte := leBytes d.offset ++ leBytes d.dataVa ++ leBytes d.size

def sizeofEdgeData : ℕ := 24

def sizeofEdgeCall : ℕ := 48

/-- The address of a `struct edge_call_t`, and those of its fields. -/
abbrev EdgeCallPtr := Addr

namespace EdgeCallPtr

def callId (p : EdgeCallPtr) : Addr := p
def callArgOffset (p : EdgeCallPtr) : Addr := p + 8#64
def callArgSize (p : EdgeCallPtr) : Addr := p + 16#64
def callStatus (p : EdgeCallPtr) : Addr := p + 24#64
def callRetOffset (p : EdgeCallPtr) : Addr := p + 32#64
def callRetSize (p : EdgeCallPtr) : Addr := p + 40#64

end EdgeCallPtr

/-! ### `edge_call.c` -/

def uintptrMax : BitVec 64 := BitVec.allOnes 64

/-- `_shared_start` and `_shared_len`. -/
structure EdgeGlobals where
  sharedStart : Addr
  sharedLen : BitVec 64

namespace EdgeGlobals

/-- The shared region. -/
def region (g : EdgeGlobals) : Span := ⟨g.sharedStart, g.sharedLen.toNat⟩

/-- `edge_call_get_ptr_from_offset`; `none` is the result -1. -/
def edgeCallGetPtrFromOffset (g : EdgeGlobals) (offset dataLen : BitVec 64) : Option Addr :=
  if offset > uintptrMax - g.sharedStart ∨ offset > g.sharedLen then none
  else if dataLen > uintptrMax - (g.sharedStart + offset) ∨ dataLen > g.sharedLen - offset then none
  else some (g.sharedStart + offset)

/-- `edge_call_check_ptr_valid`. -/
def edgeCallCheckPtrValid (g : EdgeGlobals) (ptr dataLen : BitVec 64) : ℕ :=
  if ptr > g.sharedStart + g.sharedLen ∨ ptr < g.sharedStart then 1
  else if dataLen > uintptrMax - ptr then 2
  else if ptr + dataLen > g.sharedStart + g.sharedLen then 3
  else 0

/-- `edge_call_get_offset_from_ptr`: the value of `valid` if that is not 0, or
the offset. -/
def edgeCallGetOffsetFromPtr (g : EdgeGlobals) (ptr dataLen : BitVec 64) : Except ℕ (BitVec 64) :=
  let valid := g.edgeCallCheckPtrValid ptr dataLen
  if valid ≠ 0 then .error valid else .ok (ptr - g.sharedStart)

/-- `edge_call_args_ptr`. -/
def edgeCallArgsPtr (g : EdgeGlobals) (edgeCall : EdgeCallPtr) : TouchM (Option Addr) := do
  let offset ← loadWord edgeCall.callArgOffset
  let size ← loadWord edgeCall.callArgSize
  return g.edgeCallGetPtrFromOffset offset size

/-- The offset `edge_call_setup_ret` and `edge_call_setup_wrapped_ret` leave in
the call, and their result. -/
def storeRetOffset (g : EdgeGlobals) (edgeCall : EdgeCallPtr) (ptr dataLen : BitVec 64) :
    TouchM ℕ := do
  match g.edgeCallGetOffsetFromPtr ptr dataLen with
  | .error valid => return valid
  | .ok offset =>
    storeWord edgeCall.callRetOffset offset
    return 0

/-- `edge_call_setup_ret`. -/
def edgeCallSetupRet (g : EdgeGlobals) (edgeCall : EdgeCallPtr) (ptr size : BitVec 64) :
    TouchM ℕ := do
  storeWord edgeCall.callRetSize size
  g.storeRetOffset edgeCall ptr size

/-- `edge_call_data_ptr`. -/
def edgeCallDataPtr (g : EdgeGlobals) : Addr := g.sharedStart + BitVec.ofNat 64 sizeofEdgeCall

/-- Where a wrapped payload is copied to. -/
def wrappedDataPtr (g : EdgeGlobals) : Addr :=
  g.sharedStart + BitVec.ofNat 64 (sizeofEdgeCall + sizeofEdgeData)

/-- `edge_call_setup_wrapped_ret`.  `dataWrapper` is the local variable before
its fields are set: `data_va` never is, `offset` only if its check passes. -/
def edgeCallSetupWrappedRet (g : EdgeGlobals) (edgeCall : EdgeCallPtr) (ptr size : BitVec 64)
    (dataWrapper : EdgeData) : TouchM ℕ := do
  let dataWrapper := { dataWrapper with size := size }
  let dataWrapper :=
    match g.edgeCallGetOffsetFromPtr g.wrappedDataPtr (BitVec.ofNat 64 sizeofEdgeData) with
    | .error _ => dataWrapper
    | .ok offset => { dataWrapper with offset := offset }
  copyBytes g.wrappedDataPtr ptr size.toNat
  storeBytes g.edgeCallDataPtr sizeofEdgeData fun i => dataWrapper.bytes.getD i 0
  storeWord edgeCall.callRetSize (BitVec.ofNat 64 sizeofEdgeData)
  g.storeRetOffset edgeCall g.edgeCallDataPtr (BitVec.ofNat 64 sizeofEdgeData)

/-! ### Footprints -/

theorem region_len_lt (g : EdgeGlobals) : g.region.len < 2 ^ 64 := g.sharedLen.isLt

theorem covers_iff (g : EdgeGlobals) (a : Addr) (n : ℕ) :
    g.region.Covers a n ↔ n = 0 ∨ g.region.offset a + n ≤ g.sharedLen.toNat :=
  Span.covers_iff g.region_len_lt a n

/-- The call structure lies in the shared region. -/
def HasCall (g : EdgeGlobals) (edgeCall : EdgeCallPtr) : Prop :=
  g.region.offset edgeCall + sizeofEdgeCall ≤ g.sharedLen.toNat

/-- With the call its fields lie in the region. -/
theorem HasCall.field {g : EdgeGlobals} {edgeCall : EdgeCallPtr} (h : g.HasCall edgeCall) {o : ℕ}
    (ho : o + 8 ≤ sizeofEdgeCall) : g.region.Covers (edgeCall + BitVec.ofNat 64 o) 8 := by
  have := g.region_len_lt
  unfold HasCall sizeofEdgeCall at *
  rw [covers_iff, Span.offset_add, Nat.mod_eq_of_lt (by omega)]
  omega

theorem run_edgeCallArgsPtr (g : EdgeGlobals) (edgeCall : EdgeCallPtr) (s : Touched) :
    (g.edgeCallArgsPtr edgeCall).run s =
      (g.edgeCallGetPtrFromOffset (readLE64 s.mem edgeCall.callArgOffset)
          (readLE64 s.mem edgeCall.callArgSize),
        { s with reads := s.reads ++ [(edgeCall.callArgOffset, 8), (edgeCall.callArgSize, 8)] }) := by
  simp only [edgeCallArgsPtr, run_bind, run_loadWord, run_pure, List.append_assoc,
    List.cons_append, List.nil_append]

theorem run_storeRetOffset (g : EdgeGlobals) (edgeCall : EdgeCallPtr) (ptr dataLen : BitVec 64)
    (s : Touched) :
    (g.storeRetOffset edgeCall ptr dataLen).run s =
      match g.edgeCallGetOffsetFromPtr ptr dataLen with
      | .error valid => (valid, s)
      | .ok offset => (0, ((storeWord edgeCall.callRetOffset offset).run s).2) := by
  rw [storeRetOffset]
  rcases g.edgeCallGetOffsetFromPtr ptr dataLen with valid | offset
  · rfl
  · rfl

/-- What a wrapped return writes: payload, header, and fields of the call. -/
theorem setupWrappedRet_writes (g : EdgeGlobals) (edgeCall : EdgeCallPtr) (ptr size : BitVec 64)
    (dataWrapper : EdgeData) (s : Touched) :
    ∃ tail, (tail = [] ∨ tail = [(edgeCall.callRetOffset, 8)]) ∧
      ((g.edgeCallSetupWrappedRet edgeCall ptr size dataWrapper).run s).2.writes =
        s.writes ++ ([(g.wrappedDataPtr, size.toNat), (g.edgeCallDataPtr, sizeofEdgeData),
          (edgeCall.callRetSize, 8)] ++ tail) := by
  rw [edgeCallSetupWrappedRet]
  simp only [run_bind, run_copyBytes, run_storeBytes, run_storeWord, run_storeRetOffset]
  rcases g.edgeCallGetOffsetFromPtr g.edgeCallDataPtr (BitVec.ofNat 64 sizeofEdgeData) with v | o
  · exact ⟨[], .inl rfl, by simp⟩
  · exact ⟨_, .inr rfl, by simp⟩

/-- **A wrapped return stays inside the shared region exactly if it fits**: all
bytes written lie in the region, and after success so do header and payload,
iff the region has room for the call, the header and the payload. -/
theorem setupWrappedRet_confined_iff (g : EdgeGlobals) (edgeCall : EdgeCallPtr)
    (hcall : g.HasCall edgeCall) (ptr size : BitVec 64) (dataWrapper : EdgeData) (m : Mem) :
    (∀ w ∈ ((g.edgeCallSetupWrappedRet edgeCall ptr size dataWrapper).run ⟨m, [], []⟩).2.writes,
        g.region.Covers w.1 w.2) ∧
      (((g.edgeCallSetupWrappedRet edgeCall ptr size dataWrapper).run ⟨m, [], []⟩).1 = 0 →
        g.region.Covers g.edgeCallDataPtr sizeofEdgeData ∧
          g.region.Covers g.wrappedDataPtr size.toNat) ↔
      sizeofEdgeCall + sizeofEdgeData + size.toNat ≤ g.sharedLen.toNat := by
  obtain ⟨tail, htail, hwrites⟩ := setupWrappedRet_writes g edgeCall ptr size dataWrapper ⟨m, [], []⟩
  rw [hwrites]
  -- header and payload are the writes behind the call; all others go to fields of the call
  have hdata : g.region.Covers g.edgeCallDataPtr sizeofEdgeData ↔
      sizeofEdgeCall + sizeofEdgeData ≤ g.sharedLen.toNat := by
    rw [covers_iff, edgeCallDataPtr, show g.sharedStart = g.region.start from rfl,
      Span.offset_start_add _ (by decide)]
    unfold sizeofEdgeData
    omega
  have hpayload : g.region.Covers g.wrappedDataPtr size.toNat ↔
      size.toNat = 0 ∨ sizeofEdgeCall + sizeofEdgeData + size.toNat ≤ g.sharedLen.toNat := by
    rw [covers_iff, wrappedDataPtr, show g.sharedStart = g.region.start from rfl,
      Span.offset_start_add _ (by decide)]
  constructor
  · rintro ⟨hall, -⟩
    have h1 := hpayload.mp (hall (g.wrappedDataPtr, size.toNat) (by simp))
    have h2 := hdata.mp (hall (g.edgeCallDataPtr, sizeofEdgeData) (by simp))
    omega
  · intro hfits
    have h1 := hdata.mpr (by omega)
    have h2 := hpayload.mpr (.inr hfits)
    refine ⟨fun w hw => ?_, fun _ => ⟨h1, h2⟩⟩
    have hret : ∀ x ∈ tail, g.region.Covers x.1 x.2 := by
      obtain rfl | rfl := htail
      · simp
      · intro x hx
        obtain rfl := List.mem_singleton.mp hx
        exact hcall.field (o := 32) (by decide)
    simp only [List.nil_append, List.cons_append, List.mem_cons] at hw
    obtain rfl | rfl | rfl | hw := hw
    · exact h2
    · exact h1
    · exact hcall.field (o := 40) (by decide)
    · exact hret w hw

/-- A shared page whose last 4024 bytes are free for a payload of 4025. -/
theorem setupWrappedRet_overflows :
    ¬ ∀ w ∈ ((edgeCallSetupWrappedRet ⟨0x1000#64, 0x1000#64⟩ 0x1000#64 0x8000#64 4025#64
        ⟨0#64, 0#64, 0#64⟩).run ⟨fun _ => 0, [], []⟩).2.writes,
      (region ⟨0x1000#64, 0x1000#64⟩).Covers w.1 w.2 := by
  intro hall
  obtain ⟨tail, -, hwrites⟩ := setupWrappedRet_writes ⟨0x1000#64, 0x1000#64⟩ 0x1000#64 0x8000#64
    4025#64 ⟨0#64, 0#64, 0#64⟩ ⟨fun _ => 0, [], []⟩
  have hpayload := hall (wrappedDataPtr ⟨0x1000#64, 0x1000#64⟩, 4025) (by rw [hwrites]; simp)
  rw [covers_iff] at hpayload
  revert hpayload
  decide

theorem setupWrappedRet_confined_iff_page :
    (∀ w ∈ ((edgeCallSetupWrappedRet ⟨0x1000#64, 0x1000#64⟩ 0x1000#64 0x8000#64 4024#64
        ⟨0#64, 0#64, 0#64⟩).run ⟨fun _ => 0, [], []⟩).2.writes,
      (region ⟨0x1000#64, 0x1000#64⟩).Covers w.1 w.2) ∧
    (region ⟨0x1000#64, 0x1000#64⟩).Covers (wrappedDataPtr ⟨0x1000#64, 0x1000#64⟩) 4024 := by
  obtain ⟨hwrites, hdata⟩ := (setupWrappedRet_confined_iff ⟨0x1000#64, 0x1000#64⟩ 0x1000#64
    (by unfold HasCall; decide) 0x8000#64 4024#64 ⟨0#64, 0#64, 0#64⟩ fun _ => 0).mpr (by decide)
  exact ⟨hwrites, (hdata rfl).2⟩

end EdgeGlobals

end KeystoneSdk
