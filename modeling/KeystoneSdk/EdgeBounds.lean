/-
The bounds checks of the shared region (`edge_call.c`), exactly.

* `edgeCallGetPtrFromOffset_iff` — which offsets become pointers, for every
  region;
* `EdgeGlobals.InRegion` — a block inside the region, as integers;
* **`sharedRegion_checks`** — the two checks accept the blocks inside the region
  and nothing else, and undo each other;
* `edgeCallRetPtr` — the reader's side of a wrapped return;
* **`setupWrappedRet_decodes_iff`** — a wrapped return can be decoded iff the
  region has room for a payload of the size of an `edge_data_t`.
-/
import KeystoneSdk.PageStore

open ByteMemory AccessLog

namespace KeystoneSdk

namespace EdgeGlobals

/-- The block `[ptr, ptr + dataLen)` lies in the shared region.  Nothing wraps:
a region may reach beyond the top of the address space. -/
def InRegion (g : EdgeGlobals) (ptr dataLen : ℕ) : Prop :=
  g.sharedStart.toNat ≤ ptr ∧ ptr + dataLen ≤ g.sharedStart.toNat + g.sharedLen.toNat

/-! ### Offsets -/

/-- An offset is turned into a pointer iff the block ends inside the region and
below the last byte of the address space. -/
theorem edgeCallGetPtrFromOffset_iff (g : EdgeGlobals) (offset dataLen ptr : BitVec 64) :
    g.edgeCallGetPtrFromOffset offset dataLen = some ptr ↔
      offset.toNat + dataLen.toNat ≤ g.sharedLen.toNat ∧
        g.sharedStart.toNat + offset.toNat + dataLen.toNat < 2 ^ 64 ∧
        ptr.toNat = g.sharedStart.toNat + offset.toNat := by
  have hoff := offset.isLt
  have hlen := g.sharedLen.isLt
  have hmax : uintptrMax.toNat = 2 ^ 64 - 1 := BitVec.toNat_allOnes
  -- the subtractions in the tests do not wrap where the test before has passed
  have hstart : (offset > uintptrMax - g.sharedStart ∨ offset > g.sharedLen) ↔
      ¬ (g.sharedStart.toNat + offset.toNat < 2 ^ 64 ∧ offset.toNat ≤ g.sharedLen.toNat) := by
    rw [gt_iff_lt, gt_iff_lt, BitVec.lt_def, BitVec.lt_def, BitVec.toNat_sub, hmax]
    omega
  unfold edgeCallGetPtrFromOffset
  by_cases h1 : g.sharedStart.toNat + offset.toNat < 2 ^ 64 ∧ offset.toNat ≤ g.sharedLen.toNat
  · have hptr : (g.sharedStart + offset).toNat = g.sharedStart.toNat + offset.toNat := by
      rw [BitVec.toNat_add, Nat.mod_eq_of_lt h1.1]
    have hend : (dataLen > uintptrMax - (g.sharedStart + offset) ∨
        dataLen > g.sharedLen - offset) ↔
        ¬ (g.sharedStart.toNat + offset.toNat + dataLen.toNat < 2 ^ 64 ∧
          offset.toNat + dataLen.toNat ≤ g.sharedLen.toNat) := by
      rw [gt_iff_lt, gt_iff_lt, BitVec.lt_def, BitVec.lt_def, BitVec.toNat_sub, BitVec.toNat_sub,
        hptr, hmax]
      omega
    rw [if_neg fun h => hstart.1 h h1]
    by_cases h2 : g.sharedStart.toNat + offset.toNat + dataLen.toNat < 2 ^ 64 ∧
        offset.toNat + dataLen.toNat ≤ g.sharedLen.toNat
    · rw [if_neg fun h => hend.1 h h2, Option.some_inj, ← BitVec.toNat_inj, hptr]
      omega
    · rw [if_pos (hend.2 h2)]
      constructor
      · exact nofun
      · rintro ⟨hin, hwrap, -⟩
        exact absurd ⟨hwrap, hin⟩ h2
  · rw [if_pos (hstart.2 h1)]
    constructor
    · exact nofun
    · rintro ⟨hin, hwrap, -⟩
      exact absurd ⟨by omega, by omega⟩ h1

/-! ### Pointers -/

/-- What the checks of a pointer accept lies in the region, whether or not the
region wraps. -/
theorem edgeCallCheckPtrValid_inside {g : EdgeGlobals} {ptr dataLen : BitVec 64}
    (h : g.edgeCallCheckPtrValid ptr dataLen = 0) :
    g.InRegion ptr.toNat dataLen.toNat ∧ ptr.toNat + dataLen.toNat ≤ 2 ^ 64 := by
  by_cases hg : g.NoWrap
  · have hin := (edgeCallCheckPtrValid_iff hg ptr dataLen).1 h
    unfold NoWrap at hg
    exact ⟨hin, by omega⟩
  · -- the end of the region lies before its start, so nothing is between them
    unfold NoWrap at hg
    have hstart := g.sharedStart.isLt
    have hlen := g.sharedLen.isLt
    have houtside : ptr > g.sharedStart + g.sharedLen ∨ ptr < g.sharedStart := by
      rw [gt_iff_lt, BitVec.lt_def, BitVec.lt_def, BitVec.toNat_add]
      omega
    unfold edgeCallCheckPtrValid at h
    rw [if_pos houtside] at h
    exact absurd h (by decide)

theorem edgeCallGetOffsetFromPtr_iff (g : EdgeGlobals) (ptr dataLen offset : BitVec 64) :
    g.edgeCallGetOffsetFromPtr ptr dataLen = .ok offset ↔
      g.edgeCallCheckPtrValid ptr dataLen = 0 ∧ offset = ptr - g.sharedStart := by
  unfold edgeCallGetOffsetFromPtr
  dsimp only
  by_cases hvalid : g.edgeCallCheckPtrValid ptr dataLen = 0
  · rw [if_neg (not_not.2 hvalid)]
    constructor
    · intro h
      exact ⟨hvalid, (Except.ok.inj h).symm⟩
    · rintro ⟨-, rfl⟩
      rfl
  · rw [if_pos hvalid]
    constructor
    · exact nofun
    · exact fun h => absurd h.1 hvalid

/-- A block in the region has one offset, and the offset leads back to it. -/
theorem offset_iff {g : EdgeGlobals} (hg : g.NoWrap) (offset ptr dataLen : BitVec 64) :
    g.edgeCallGetOffsetFromPtr ptr dataLen = .ok offset ↔
      g.edgeCallGetPtrFromOffset offset dataLen = some ptr := by
  have hoff := offset.isLt
  rw [edgeCallGetOffsetFromPtr_iff, edgeCallGetPtrFromOffset_iff, edgeCallCheckPtrValid_iff hg,
    ← BitVec.toNat_inj, BitVec.toNat_sub]
  unfold NoWrap at hg
  omega

/-- **The bounds checks are exact.**  In a region that does not wrap they accept
the blocks inside it, and an offset and a pointer to the same block lead to each
other.  In any region, what they accept lies in the region and in the address
space. -/
theorem sharedRegion_checks (g : EdgeGlobals) :
    (g.sharedStart.toNat + g.sharedLen.toNat < 2 ^ 64 →
      (∀ offset dataLen ptr : BitVec 64, g.edgeCallGetPtrFromOffset offset dataLen = some ptr ↔
        offset.toNat + dataLen.toNat ≤ g.sharedLen.toNat ∧
          ptr.toNat = g.sharedStart.toNat + offset.toNat) ∧
      (∀ ptr dataLen : BitVec 64, g.edgeCallCheckPtrValid ptr dataLen = 0 ↔
        g.sharedStart.toNat ≤ ptr.toNat ∧
          ptr.toNat + dataLen.toNat ≤ g.sharedStart.toNat + g.sharedLen.toNat) ∧
      (∀ ptr dataLen offset : BitVec 64, g.edgeCallGetOffsetFromPtr ptr dataLen = .ok offset →
        g.edgeCallGetPtrFromOffset offset dataLen = some ptr) ∧
      (∀ offset dataLen ptr : BitVec 64, g.edgeCallGetPtrFromOffset offset dataLen = some ptr →
        g.edgeCallGetOffsetFromPtr ptr dataLen = .ok offset)) ∧
    (∀ offset dataLen ptr : BitVec 64, g.edgeCallGetPtrFromOffset offset dataLen = some ptr →
      g.InRegion ptr.toNat dataLen.toNat ∧ ptr.toNat + dataLen.toNat ≤ 2 ^ 64) ∧
    (∀ ptr dataLen : BitVec 64, g.edgeCallCheckPtrValid ptr dataLen = 0 →
      g.InRegion ptr.toNat dataLen.toNat ∧ ptr.toNat + dataLen.toNat ≤ 2 ^ 64) := by
  refine ⟨fun hg => ⟨?_, edgeCallCheckPtrValid_iff hg, ?_, ?_⟩, ?_, ?_⟩
  · intro offset dataLen ptr
    rw [edgeCallGetPtrFromOffset_iff]
    omega
  · intro ptr dataLen offset
    exact (offset_iff hg offset ptr dataLen).1
  · intro offset dataLen ptr
    exact (offset_iff hg offset ptr dataLen).2
  · intro offset dataLen ptr h
    rw [edgeCallGetPtrFromOffset_iff] at h
    unfold InRegion
    omega
  · intro ptr dataLen h
    exact edgeCallCheckPtrValid_inside h

theorem sharedRegion_checks_page :
    edgeCallGetPtrFromOffset ⟨0x1000#64, 0x1000#64⟩ 0x800#64 0x800#64 = some 0x1800#64 :=
  ((sharedRegion_checks ⟨0x1000#64, 0x1000#64⟩).1 (by decide)).1 _ _ _ |>.2 (by decide)

/-! ### Wrapped returns -/

/-- `edge_call_ret_ptr`. -/
def edgeCallRetPtr (g : EdgeGlobals) (edgeCall : EdgeCallPtr) : TouchM (Option Addr) := do
  let offset ← loadWord edgeCall.callRetOffset
  let size ← loadWord edgeCall.callRetSize
  return g.edgeCallGetPtrFromOffset offset size

theorem run_edgeCallRetPtr (g : EdgeGlobals) (edgeCall : EdgeCallPtr) (s : Touched) :
    ((g.edgeCallRetPtr edgeCall).run s).1 =
      g.edgeCallGetPtrFromOffset (readLE64 s.mem edgeCall.callRetOffset)
        (readLE64 s.mem edgeCall.callRetSize) := by
  simp only [edgeCallRetPtr, run_bind, run_loadWord, run_pure]

/-- From the memory `m'` a reader gets the `size` bytes that were at `ptr` in `m`,
and the rest of the shared region is as it was in `m`. -/
structure Decodes (g : EdgeGlobals) (m m' : Mem) (ptr size : BitVec 64) : Prop where
  data : ∃ header data, ((g.edgeCallRetPtr g.buffer).run ⟨m', [], []⟩).1 = some header ∧
    g.edgeCallGetPtrFromOffset (readLE64 m' header) (readLE64 m' (header + 16#64)) = some data ∧
    readLE64 m' (header + 16#64) = size ∧
    readBytes m' data size.toNat = readBytes m ptr size.toNat
  callId : readLE64 m' g.buffer.callId = readLE64 m g.buffer.callId
  callArgOffset : readLE64 m' g.buffer.callArgOffset = readLE64 m g.buffer.callArgOffset
  callArgSize : readLE64 m' g.buffer.callArgSize = readLE64 m g.buffer.callArgSize
  frame : ∀ o, o < g.sharedLen.toNat → o < 24 ∨ sizeofEdgeCall + sizeofEdgeData + size.toNat ≤ o →
    m' (g.sharedStart + BitVec.ofNat 64 o) = m (g.sharedStart + BitVec.ofNat 64 o)

/-- The header of a wrapped return is found where it was put. -/
theorem Wrapped.retPtr {g : EdgeGlobals} (hg : g.NoWrap) {m m' : Mem} {ptr : Addr} {n : ℕ}
    {d : EdgeData} (h : g.Wrapped m m' ptr n d)
    (hroom : sizeofEdgeCall + sizeofEdgeData ≤ g.sharedLen.toNat) :
    ((g.edgeCallRetPtr g.buffer).run ⟨m', [], []⟩).1 = some g.edgeCallDataPtr := by
  rw [run_edgeCallRetPtr, h.retOffset, h.retSize, edgeCallGetPtrFromOffset_inside hg hroom,
    edgeCallDataPtr, sharedStart_add]

/-- A header with the offset of the payload can be decoded. -/
theorem Wrapped.decodes {g : EdgeGlobals} (hg : g.NoWrap) {m m' : Mem} {ptr dataVa size : BitVec 64}
    (h : g.Wrapped m m' ptr size.toNat
      ⟨BitVec.ofNat 64 (sizeofEdgeCall + sizeofEdgeData), dataVa, size⟩)
    (hfits : sizeofEdgeCall + sizeofEdgeData + size.toNat ≤ g.sharedLen.toNat) :
    g.Decodes m m' ptr size := by
  have hword : ∀ o, o + 8 ≤ 24 → readLE64 m' (g.sharedStart + BitVec.ofNat 64 o) =
      readLE64 m (g.sharedStart + BitVec.ofNat 64 o) := by
    intro o ho
    unfold sizeofEdgeCall at hfits
    refine readLE64_congr fun i hi => ?_
    rw [BitVec.add_assoc, ← BitVec.ofNat_add]
    exact h.frame _ (by omega) (by omega)
  have hdata : g.edgeCallGetPtrFromOffset (BitVec.ofNat 64 (sizeofEdgeCall + sizeofEdgeData)) size =
      some g.wrappedDataPtr := by
    have hptr := edgeCallGetPtrFromOffset_inside hg hfits
    rw [BitVec.ofNat_toNat, BitVec.setWidth_eq] at hptr
    rw [hptr, wrappedDataPtr, sharedStart_add]
  refine ⟨⟨_, _, h.retPtr hg (by omega), ?_, h.size, h.payload⟩, ?_, hword 8 (by omega),
    hword 16 (by omega), ?_⟩
  · rw [h.offset, h.size]
    exact hdata
  · have := hword 0 (by omega)
    rwa [BitVec.add_zero] at this
  · intro o ho hout
    exact h.frame o ho (by omega)

/-- A header with an offset behind the region cannot be decoded. -/
theorem Wrapped.not_decodes {g : EdgeGlobals} (hg : g.NoWrap) {m m' : Mem} {ptr size : BitVec 64}
    {d : EdgeData} (h : g.Wrapped m m' ptr size.toNat d)
    (hroom : sizeofEdgeCall + sizeofEdgeData ≤ g.sharedLen.toNat)
    (hbehind : g.sharedLen.toNat < d.offset.toNat) : ¬ g.Decodes m m' ptr size := by
  rintro ⟨⟨header, data, hheader, hdata, -⟩, -⟩
  obtain rfl := Option.some.inj ((h.retPtr hg hroom).symm.trans hheader)
  rw [edgeCallGetPtrFromOffset_iff, h.offset] at hdata
  omega

/-- A wrapped return that finds `size` bytes of room for its payload. -/
theorem wrapped_run {g : EdgeGlobals} (hg : g.NoWrap) {size : BitVec 64}
    (hfits : sizeofEdgeCall + sizeofEdgeData + size.toNat ≤ g.sharedLen.toNat) (ptr : Addr)
    (dataWrapper : EdgeData) (m : Mem) :
    ((g.edgeCallSetupWrappedRet g.buffer ptr size dataWrapper).run ⟨m, [], []⟩).1 = 0 ∧
      g.Wrapped m ((g.edgeCallSetupWrappedRet g.buffer ptr size dataWrapper).run
        ⟨m, [], []⟩).2.mem ptr size.toNat (g.wrapper size.toNat dataWrapper) := by
  obtain ⟨reads, writes, hrun⟩ := run_setupWrappedRet_of_fits hg hfits ptr dataWrapper ⟨m, [], []⟩
  rw [BitVec.ofNat_toNat, BitVec.setWidth_eq] at hrun
  rw [hrun]
  exact ⟨rfl, wrapped_wrappedWith hg hfits m ptr _⟩

/-- Where an `edge_data_t` fits after the header, the payload can be decoded. -/
theorem setupWrappedRet_decodes {g : EdgeGlobals} (hg : g.NoWrap) {size : BitVec 64}
    (hfits : sizeofEdgeCall + sizeofEdgeData + size.toNat ≤ g.sharedLen.toNat)
    (hroom : sizeofEdgeCall + 2 * sizeofEdgeData ≤ g.sharedLen.toNat) (ptr : Addr)
    (dataWrapper : EdgeData) (m : Mem) :
    g.Decodes m ((g.edgeCallSetupWrappedRet g.buffer ptr size dataWrapper).run
      ⟨m, [], []⟩).2.mem ptr size := by
  have h := (wrapped_run hg hfits ptr dataWrapper m).2
  rw [wrapper, if_pos hroom, BitVec.ofNat_toNat, BitVec.setWidth_eq] at h
  exact h.decodes hg hfits

/-- Where it does not, the offset is whatever the local variable held. -/
theorem setupWrappedRet_not_decodes {g : EdgeGlobals} (hg : g.NoWrap) {size : BitVec 64}
    (hfits : sizeofEdgeCall + sizeofEdgeData + size.toNat ≤ g.sharedLen.toNat)
    (hroom : ¬ sizeofEdgeCall + 2 * sizeofEdgeData ≤ g.sharedLen.toNat) (ptr : Addr) (m : Mem) :
    ¬ g.Decodes m ((g.edgeCallSetupWrappedRet g.buffer ptr size
      ⟨BitVec.allOnes 64, 0#64, 0#64⟩).run ⟨m, [], []⟩).2.mem ptr size := by
  have h := (wrapped_run hg hfits ptr ⟨BitVec.allOnes 64, 0#64, 0#64⟩ m).2
  rw [wrapper, if_neg hroom] at h
  refine h.not_decodes hg (by omega) ?_
  show g.sharedLen.toNat < (BitVec.allOnes 64).toNat
  unfold sizeofEdgeCall sizeofEdgeData at hroom
  rw [BitVec.toNat_allOnes]
  omega

/-- **A wrapped return can be decoded**, whatever its local variable held before,
iff the region has room for an `edge_data_t` where the payload goes: that, and not
the size of the payload, is what the offset is checked with.  (The payload is
copied by `memcpy` and must not overlap the region.) -/
theorem setupWrappedRet_decodes_iff (g : EdgeGlobals)
    (hg : g.sharedStart.toNat + g.sharedLen.toNat < 2 ^ 64) (m : Mem) (ptr size : BitVec 64)
    (hfits : sizeofEdgeCall + sizeofEdgeData + size.toNat ≤ g.sharedLen.toNat) :
    (∀ dataWrapper,
      ((g.edgeCallSetupWrappedRet g.buffer ptr size dataWrapper).run ⟨m, [], []⟩).1 = 0 ∧
        g.Decodes m ((g.edgeCallSetupWrappedRet g.buffer ptr size dataWrapper).run
          ⟨m, [], []⟩).2.mem ptr size) ↔
      sizeofEdgeCall + 2 * sizeofEdgeData ≤ g.sharedLen.toNat := by
  constructor
  · intro h
    by_contra hroom
    exact setupWrappedRet_not_decodes hg hfits hroom ptr m (h ⟨BitVec.allOnes 64, 0#64, 0#64⟩).2
  · intro hroom dataWrapper
    exact ⟨(wrapped_run hg hfits ptr dataWrapper m).1,
      setupWrappedRet_decodes hg hfits hroom ptr dataWrapper m⟩

/-- A region of 80 bytes with a payload of one word. -/
theorem setupWrappedRet_loses_payload :
    ¬ Decodes ⟨0x1000#64, 80#64⟩ (fun _ => 0)
      ((edgeCallSetupWrappedRet ⟨0x1000#64, 80#64⟩ (buffer ⟨0x1000#64, 80#64⟩) 0x8000#64 8#64
        ⟨BitVec.allOnes 64, 0#64, 0#64⟩).run ⟨fun _ => 0, [], []⟩).2.mem 0x8000#64 8#64 :=
  setupWrappedRet_not_decodes (by unfold NoWrap; decide) (by decide) (by decide) _ _

theorem setupWrappedRet_decodes_iff_page :
    Decodes ⟨0x1000#64, 0x1000#64⟩ (fun _ => 0)
      ((edgeCallSetupWrappedRet ⟨0x1000#64, 0x1000#64⟩ (buffer ⟨0x1000#64, 0x1000#64⟩) 0x8000#64
        8#64 ⟨0#64, 0#64, 0#64⟩).run ⟨fun _ => 0, [], []⟩).2.mem 0x8000#64 8#64 :=
  ((setupWrappedRet_decodes_iff ⟨0x1000#64, 0x1000#64⟩ (by decide) (fun _ => 0) 0x8000#64 8#64
    (by decide)).2 (by decide) ⟨0#64, 0#64, 0#64⟩).2

end EdgeGlobals

end KeystoneSdk
