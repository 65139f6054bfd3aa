/-
What a request to the handlers of the stores asks for, and that a handler which is not
stopped by its trace does it (`edge_wrapper.cpp`).

* `Handler.Exists` — the elements that a request names exist;
* `Handler.asked`, `Handler.payload` — the memory and the reply that a request asks for;
* `Handler.Done` — they are there after the call;
* `Handler.Stops` — the trace of the handler stops it;
* `Handler.returns_of_not_stops`, `Handler.sets_of_not_stops` — how a handler ends otherwise;
* **`Handler.done_of_not_stops`** — it has done its work.
-/
import KeystoneSdk.BucketStores

open ByteMemory AccessLog

namespace KeystoneSdk

/-! ### Requests -/

namespace EdgeCallPtr

/-- The words of a call that an answer sets: the status, and offset and size of the reply. -/
def answer (p : EdgeCallPtr) : Span := ⟨p.callStatus, 24⟩

theorem callRetOffset_eq (p : EdgeCallPtr) :
    p.callRetOffset = p.callStatus + BitVec.ofNat 64 8 := by
  rw [callRetOffset, callStatus, BitVec.add_assoc]
  rfl

theorem callRetSize_eq (p : EdgeCallPtr) : p.callRetSize = p.callStatus + BitVec.ofNat 64 16 := by
  rw [callRetSize, callStatus, BitVec.add_assoc]
  rfl

end EdgeCallPtr

namespace Handler

/-- The elements that a request names exist, and the metadata that its trace reads. -/
def Exists (h : StoreHost) (m : Mem) (callArgs : Addr) : Handler → Prop
  | getEnclaveContentFromEpmWrapper => (readLE64 m callArgs >>> 12).toNat < h.stores.length .pArr
  | getHostContentFromUtmWrapper => (readLE64 m callArgs >>> 12).toNat < h.stores.length .pArr
  | readBucket => (readLE64 m callArgs).toNat < h.stores.length .treearray
  | writeBuckets => (readLE64 m callArgs).toNat < h.stores.length .treearray
  | opamWriteBuckets => (readLE64 m callArgs).toNat < h.stores.length .treeOpamMd
  | opamReadBucketMd => (readLE64 m callArgs).toNat < h.stores.length .treeOpamMd
  | opamReadBucketD =>
    (readLE64 m callArgs).toNat < h.stores.length .treeOpam ∧
      (Traces h → (readLE64 m callArgs).toNat < h.stores.length .treeOpamMd)
  | opamWriteBucketsD =>
    (readLE64 m callArgs).toNat < h.stores.length .treeOpam ∧
      (Traces h → (readLE64 m callArgs).toNat < h.stores.length .treeOpamMd)
  | opamWriteBucketsMd =>
    (readLE64 m callArgs).toNat < h.stores.length .treeOpamMd ∧
      (readLE64 m callArgs).toNat < h.stores.length .treeOpam ∧
      (readLE64 m (callArgs + 24#64)).toNat < h.stores.length .treeOpam
  | roramWriteBucketInit => (readLE64 m callArgs).toNat < h.stores.length .treeRoramD
  | roramReadBlock =>
    (readLE64 m callArgs).toNat < h.stores.length .treeRoramD ∧
      (readLE64 m (callArgs + 8#64)).toNat < Store.treeRoramD.blocks

/-- The memory that a request asks for: its element is stored at its index.
`opam_write_buckets_md` also moves a page, from where the metadata says it is, and makes the
metadata say where it is now. -/
def asked (h : StoreHost) (m : Mem) (callArgs : Addr) : Handler → Mem
  | getEnclaveContentFromEpmWrapper => stored .pArr (readLE64 m callArgs >>> 12) callArgs
  | getHostContentFromUtmWrapper => m
  | readBucket => m
  | writeBuckets => stored .treearray (readLE64 m callArgs) (callArgs + 8#64)
  | opamWriteBuckets => stored .treeOpamMd (readLE64 m callArgs) (callArgs + 8#64)
  | opamReadBucketMd => m
  | opamReadBucketD => m
  | opamWriteBucketsD => stored .treeOpam (readLE64 m callArgs) (callArgs + 8#64)
  | opamWriteBucketsMd =>
    let index := readLE64 m callArgs
    let source := h.stores.address .treeOpam (readLE64 m (callArgs + 24#64))
    let md := stored .treeOpamMd index (callArgs + 8#64)
    let moved := writeBytes md (h.stores.address .treeOpam index) Store.treeOpam.sizeof fun k =>
      md (source + BitVec.ofNat 64 k)
    writeLE64 moved (h.stores.address .treeOpamMd index + 16#64) index
  | roramWriteBucketInit => stored .treeRoramD (readLE64 m callArgs) (callArgs + 8#64)
  | roramReadBlock => m
where
  /-- The bytes at `src` are element `i`. -/
  stored (st : Store) (i : BitVec 64) (src : Addr) : Mem :=
    writeBytes m (h.stores.address st i) st.sizeof fun k => m (src + BitVec.ofNat 64 k)

/-- The bytes of a reply. -/
def replyLen : Handler → ℕ
  | getEnclaveContentFromEpmWrapper => 8
  | getHostContentFromUtmWrapper => Store.pArr.sizeof
  | readBucket => Store.treearray.sizeof
  | opamReadBucketMd => Store.treeOpamMd.sizeof
  | opamReadBucketD => Store.treeOpam.sizeof
  | roramReadBlock => Store.treeRoramD.sizeofBlock
  | _ => 0

theorem replyLen_lt (x : Handler) : x.replyLen < 2 ^ 63 := by
  cases x <;> decide

theorem covers_reply (x : Handler) (a : Addr) : (⟨a, x.replyLen⟩ : Span).Covers a x.replyLen := by
  have hlt := x.replyLen_lt
  exact Span.covers_prefix a le_rfl (by omega)

/-- The reply that a request asks for: an element, or a block of one. -/
def payload (h : StoreHost) (m : Mem) (callArgs : Addr) : Handler → ℕ → Byte
  -- `destination_page_to_store_victim_page`
  | getEnclaveContentFromEpmWrapper => byteOf 1#64
  | getHostContentFromUtmWrapper => bytesAt (h.stores.address .pArr (readLE64 m callArgs >>> 12))
  | readBucket => bytesAt (h.stores.address .treearray (readLE64 m callArgs))
  | opamReadBucketMd => bytesAt (h.stores.address .treeOpamMd (readLE64 m callArgs))
  | opamReadBucketD => bytesAt (h.stores.address .treeOpam (readLE64 m callArgs))
  | roramReadBlock => bytesAt (h.stores.blockAddress .treeRoramD (readLE64 m callArgs)
      (readLE64 m (callArgs + 8#64)))
  | _ => fun _ => 0
where
  bytesAt (a : Addr) : ℕ → Byte := fun k => m (a + BitVec.ofNat 64 k)

/-- The memory that an answer takes: words of the call, and with a reply its header, its
payload and the local variable. -/
def answer (h : StoreHost) (edgeCall : EdgeCallPtr) (x : Handler) : List Span :=
  edgeCall.answer :: if x.replyLen = 0 then [] else
    [⟨h.g.edgeCallDataPtr, sizeofEdgeData + x.replyLen⟩, ⟨h.frame, x.replyLen⟩]

/-- **The work of a handler**: but for its answer it has left the memory that was asked for,
and where no word of the call is, its payload is the reply that was asked for. -/
structure Done (h : StoreHost) (edgeCall : EdgeCallPtr) (m : Mem) (callArgs : Addr) (x : Handler)
    (m' : Mem) : Prop where
  memory : EqOutside (x.answer h edgeCall) (x.asked h m callArgs) m'
  payload : ∀ i < x.replyLen, ¬ edgeCall.answer.Contains (h.g.wrappedDataPtr + BitVec.ofNat 64 i) →
    m' (h.g.wrappedDataPtr + BitVec.ofNat 64 i) = x.payload h m callArgs i

/-- The handler returns what it finds in an array. -/
def ReturnsData : Handler → Prop
  | getEnclaveContentFromEpmWrapper => True
  | getHostContentFromUtmWrapper => True
  | readBucket => True
  | opamReadBucketMd => True
  | opamReadBucketD => True
  | roramReadBlock => True
  | _ => False

/-- The handler stops because it cannot trace.  `opamWriteBucketsD` has set its status
before it traces. -/
def Stops (h : StoreHost) (m : Mem) (callArgs : Addr) : Handler → Prop
  | readBucket => readLE64 m callArgs ≥ h.leafStart ∧ TraceFails h
  | opamReadBucketD => TraceFails h
  | roramWriteBucketInit => TraceFails h
  | roramReadBlock => TraceFails h
  | _ => False

/-- A request that fits, and is not stopped, names elements that exist. -/
theorem exists_of_fits {h : StoreHost} {m : Mem} {callArgs : Addr} {size : ℕ} {x : Handler}
    (hfits : x.Fits h m callArgs size) (hgo : ¬ x.Stops h m callArgs) : x.Exists h m callArgs := by
  cases x with
  | readBucket => exact hfits.2.resolve_left hgo
  | opamReadBucketD => exact hfits.2.resolve_left hgo
  | roramReadBlock => exact hfits.2.resolve_left hgo
  | _ => exact hfits.2

end Handler

/-! ### Replies -/

section Replies

variable {edgeCall : EdgeCallPtr} {m : Mem}

/-- Storing a word of the call. -/
theorem eqOutside_answer {o : ℕ} (ho : o + 8 ≤ 24) (v : BitVec 64) :
    EqOutside [edgeCall.answer] m (writeLE64 m (edgeCall.callStatus + BitVec.ofNat 64 o) v) :=
  eqOutside_writeBytes (List.mem_cons_self ..) (Span.covers_block _ ho (by decide)) m _

theorem eqOutside_setCallStatus (v : BitVec 64) (s : Handled) :
    EqOutside [edgeCall.answer] s.touched.mem ((setCallStatus edgeCall v).run s).2.touched.mem :=
  eqOutside_writeBytes (List.mem_cons_self ..) (Span.covers_prefix _ (by decide) (by decide)) _ _

/-- **A reply** puts header and payload behind the call, and sets words of the call. -/
theorem returnWrapped_mem (h : StoreHost) (edgeCall : EdgeCallPtr) (ptr : Addr) {n : ℕ}
    (hn : n < 2 ^ 63) (s : Handled) {m' : Mem}
    (hm' : ((h.returnWrapped edgeCall ptr n).run s).2.touched.mem = m') :
    EqOutside [edgeCall.answer, ⟨h.g.edgeCallDataPtr, sizeofEdgeData + n⟩] s.touched.mem m' ∧
      ∀ i < n, ¬ edgeCall.answer.Contains (h.g.wrappedDataPtr + BitVec.ofNat 64 i) →
        m' (h.g.wrappedDataPtr + BitVec.ofNat 64 i) = s.touched.mem (ptr + BitVec.ofNat 64 i) := by
  have hsize : (BitVec.ofNat 64 n).toNat = n := Nat.mod_eq_of_lt (by omega)
  have hwrapped : h.g.wrappedDataPtr = h.g.edgeCallDataPtr + BitVec.ofNat 64 sizeofEdgeData := by
    rw [EdgeGlobals.wrappedDataPtr, EdgeGlobals.edgeCallDataPtr, BitVec.add_assoc, BitVec.ofNat_add]
  -- what the payload leaves, then the header, then the words of the call
  set payload := writeBytes s.touched.mem h.g.wrappedDataPtr n fun i =>
    s.touched.mem (ptr + BitVec.ofNat 64 i) with hpayload
  obtain ⟨d, hheader⟩ : ∃ d : EdgeData, EqOutside [edgeCall.answer]
      (writeBytes payload h.g.edgeCallDataPtr sizeofEdgeData fun i => d.bytes.getD i 0)
      ((h.g.edgeCallSetupWrappedRet edgeCall ptr (BitVec.ofNat 64 n) h.dataWrapper).run
        s.touched).2.mem := by
    rw [EdgeGlobals.edgeCallSetupWrappedRet]
    simp only [run_bind, run_copyBytes, run_storeBytes, run_storeWord,
      EdgeGlobals.run_storeRetOffset, hsize, edgeCall.callRetSize_eq, edgeCall.callRetOffset_eq]
    rcases h.g.edgeCallGetOffsetFromPtr h.g.edgeCallDataPtr (BitVec.ofNat 64 sizeofEdgeData) with
      valid | offset
    · exact ⟨_, eqOutside_answer (by decide) _⟩
    · exact ⟨_, (eqOutside_answer (by decide) _).trans (eqOutside_answer (by decide) _)⟩
  have hanswer : EqOutside [edgeCall.answer]
      (writeBytes payload h.g.edgeCallDataPtr sizeofEdgeData fun i => d.bytes.getD i 0) m' := by
    rw [StoreHost.returnWrapped, Handled.run_bind, run_touch] at hm'
    refine hheader.trans ?_
    rw [← hm']
    split
    · exact eqOutside_setCallStatus _ _
    · exact eqOutside_setCallStatus _ _
  constructor
  · have hreply : EqOutside [edgeCall.answer, ⟨h.g.edgeCallDataPtr, sizeofEdgeData + n⟩]
        s.touched.mem
        (writeBytes payload h.g.edgeCallDataPtr sizeofEdgeData fun i => d.bytes.getD i 0) := by
      refine (eqOutside_writeBytes (List.mem_cons_of_mem _ (List.mem_cons_self ..)) ?_ _ _).trans
        (eqOutside_writeBytes (List.mem_cons_of_mem _ (List.mem_cons_self ..)) ?_ _ _)
      · rw [hwrapped]
        exact Span.covers_block _ le_rfl (by unfold sizeofEdgeData; omega)
      · exact Span.covers_prefix _ (Nat.le_add_right _ _) (by unfold sizeofEdgeData; omega)
    exact hreply.trans (hanswer.mono (List.cons_subset_cons _ (List.nil_subset _)))
  · intro i hi hout
    rw [hanswer _ fun R hR => List.mem_singleton.mp hR ▸ hout, hwrapped, BitVec.add_assoc,
      ← BitVec.ofNat_add]
    have hbehind : ¬ (h.g.edgeCallDataPtr + BitVec.ofNat 64 (sizeofEdgeData + i) -
        h.g.edgeCallDataPtr).toNat < sizeofEdgeData := by
      rw [add_ofNat_sub_toNat _ (by unfold sizeofEdgeData; omega)]
      omega
    rw [show writeBytes payload h.g.edgeCallDataPtr sizeofEdgeData (fun i => d.bytes.getD i 0) _ =
      payload _ from if_neg hbehind, BitVec.ofNat_add, ← BitVec.add_assoc, ← hwrapped, hpayload]
    exact writeBytes_inside _ _ _ hi (by omega)

end Replies

/-! ### Traces -/

/-- A computation that leaves the memory alone and sets no status. -/
def Silent (x : HandlerM Unit) : Prop :=
  ∀ s, (x.run s).2.touched.mem = s.touched.mem ∧
    ∃ l, (x.run s).2.accesses = s.accesses ++ l ∧ ∀ y ∈ l, ∀ v, y ≠ .status v

theorem silent_pure : Silent (pure ()) :=
  fun _ => ⟨rfl, [], (List.append_nil _).symm, fun _ hy => absurd hy List.not_mem_nil⟩

theorem Silent.bind {x y : HandlerM Unit} (hx : Silent x) (hy : Silent y) :
    Silent (do x; y) := by
  intro s
  obtain ⟨hmem, l, hl, hstatus⟩ := hx s
  obtain ⟨hmem', l', hl', hstatus'⟩ := hy (x.run s).2
  refine ⟨hmem'.trans hmem, l ++ l', ?_, List.forall_mem_append.mpr ⟨hstatus, hstatus'⟩⟩
  rw [← List.append_assoc, ← hl]
  exact hl'

theorem silent_note {y : Access} (hy : ∀ v, y ≠ .status v) : Silent (note y) :=
  fun _ => ⟨rfl, [y], rfl, List.forall_mem_singleton.mpr hy⟩

theorem silent_traceBlock (h : StoreHost) (st : Store) (i j : BitVec 64) :
    Silent (h.traceBlock st i j) := by
  intro s
  refine ⟨rfl, [.block st i j, .trace (readLE64 s.touched.mem (h.stores.blockAddress st i j))],
    List.append_assoc _ _ _, ?_⟩
  simp

theorem silent_traceBlocks (h : StoreHost) (st : Store) (i : BitVec 64) (n : ℕ) :
    Silent (h.traceBlocks st i n) := by
  induction n with
  | zero => exact silent_pure
  | succ n ih => exact ih.bind (silent_traceBlock h st i _)

theorem silent_traced (h : StoreHost) {trace rest : HandlerM Unit} (htrace : Silent trace)
    (hrest : Silent rest) : Silent (h.traced trace rest) := by
  unfold StoreHost.traced
  split
  · split
    · exact htrace.bind hrest
    · exact silent_pure
  · exact hrest

/-! ### Runs of the handlers -/

namespace Handler

section

variable {h : StoreHost} {edgeCall : EdgeCallPtr} {m : Mem} {callArgs : Addr}

/-- A handler that is not stopped by its trace goes on with the same memory. -/
theorem traced_goes_on (hgo : ¬ TraceFails h) {trace : HandlerM Unit} (htrace : Silent trace)
    (rest : HandlerM Unit) (s : Handled) :
    ∃ s', s'.touched.mem = s.touched.mem ∧ (h.traced trace rest).run s = rest.run s' := by
  unfold StoreHost.traced
  by_cases htracing : h.argsUser.pageAddrTracing ≠ 0#8
  · rcases hfile : h.traceFile with _ | _
    · exact absurd ⟨htracing, hfile⟩ hgo
    · rw [if_pos htracing, if_pos rfl]
      exact ⟨_, (htrace s).1, rfl⟩
  · rw [if_neg htracing]
    exact ⟨s, rfl, rfl⟩

theorem run_withArgs (hargs : h.g.edgeCallGetPtrFromOffset (readLE64 m edgeCall.callArgOffset)
    (readLE64 m edgeCall.callArgSize) = some callArgs) (body : Addr → HandlerM Unit) :
    (h.withArgs edgeCall body).run ⟨⟨m, [], []⟩, []⟩ = (body callArgs).run
      ⟨⟨m, [(edgeCall.callArgOffset, 8), (edgeCall.callArgSize, 8)], []⟩, []⟩ := by
  rw [StoreHost.withArgs, Handled.run_bind, run_argsPtr, hargs]

/-- Most handlers read an index first. -/
theorem run_withIndex (hargs : h.g.edgeCallGetPtrFromOffset (readLE64 m edgeCall.callArgOffset)
    (readLE64 m edgeCall.callArgSize) = some callArgs) (body : Addr → BitVec 64 → HandlerM Unit) :
    (h.withArgs edgeCall fun a => loadRequestWord a >>= body a).run ⟨⟨m, [], []⟩, []⟩ =
      (body callArgs (readLE64 m callArgs)).run (indexed edgeCall m callArgs) := by
  rw [run_withArgs hargs, Handled.run_bind, run_loadRequestWord]
  rfl

/-- **A handler that returns data** ends with a reply, taken from memory that holds it. -/
theorem returns_of_not_stops (hargs : h.g.edgeCallGetPtrFromOffset
    (readLE64 m edgeCall.callArgOffset) (readLE64 m edgeCall.callArgSize) = some callArgs)
    {x : Handler} (hdata : x.ReturnsData) (hgo : ¬ x.Stops h m callArgs) :
    ∃ s ptr, (x.call h edgeCall).run ⟨⟨m, [], []⟩, []⟩ =
        (h.returnWrapped edgeCall ptr x.replyLen).run s ∧
      EqOutside [⟨h.frame, x.replyLen⟩] (x.asked h m callArgs) s.touched.mem ∧
      ∀ i < x.replyLen, s.touched.mem (ptr + BitVec.ofNat 64 i) = x.payload h m callArgs i := by
  cases x with
  | getEnclaveContentFromEpmWrapper =>
    have haddress : readLE64 (fun o => m (callArgs + o)) 0#64 = readLE64 m callArgs := by
      rw [readLE64_local, BitVec.add_zero]
    rw [call, StoreHost.getEnclaveContentFromEpmWrapper, run_withArgs hargs, Handled.run_bind,
      run_loadRequest]
    dsimp only
    rw [haddress, Handled.run_bind, Handled.run_bind, Handled.run_bind, run_touch, run_touch]
    refine ⟨_, _, rfl, ?_, fun i hi => ?_⟩
    · exact eqOutside_writeBytes (List.mem_cons_self ..) (covers_reply _ _) _ _
    · exact writeBytes_inside _ _ _ hi (by decide)
  | getHostContentFromUtmWrapper =>
    rw [call, StoreHost.getHostContentFromUtmWrapper, run_withIndex hargs, Handled.run_bind,
      Handled.run_bind]
    -- the local copy
    have hcopy : ((touch (copyBytes h.frame (h.stores.address .pArr (readLE64 m callArgs >>> 12))
        Store.pArr.sizeof)).run ((note (.bucket .pArr (readLE64 m callArgs >>> 12))).run
          (indexed edgeCall m callArgs)).2).2.touched.mem =
        writeBytes m h.frame Store.pArr.sizeof
          (payload.bytesAt m (h.stores.address .pArr (readLE64 m callArgs >>> 12))) := rfl
    refine ⟨_, _, rfl, ?_, fun i hi => ?_⟩
    · rw [hcopy]
      exact eqOutside_writeBytes (List.mem_cons_self ..)
        (covers_reply getHostContentFromUtmWrapper _) m _
    · rw [hcopy]
      exact writeBytes_inside _ _ _ hi (by decide)
  | readBucket =>
    rw [call, StoreHost.readBucket, run_withIndex hargs]
    by_cases hleaf : readLE64 m callArgs ≥ h.leafStart
    · obtain ⟨s', hmem, hrun⟩ := traced_goes_on (fun hfails => hgo ⟨hleaf, hfails⟩)
        (silent_note (y := .trace (((readLE64 m callArgs - h.leafStart).setWidth 32).signExtend 64))
          fun v => by simp)
        (h.returnBucket edgeCall .treearray (readLE64 m callArgs)) (indexed edgeCall m callArgs)
      rw [if_pos hleaf, hrun]
      refine ⟨_, _, rfl, ?_, fun i _ => congrFun hmem _⟩
      exact fun _ _ => congrFun hmem _
    · rw [if_neg hleaf]
      exact ⟨_, _, rfl, eqOutside_refl _ _, fun _ _ => rfl⟩
  | opamReadBucketMd =>
    rw [call, StoreHost.opamReadBucketMd, run_withIndex hargs]
    exact ⟨_, _, rfl, eqOutside_refl _ _, fun _ _ => rfl⟩
  | opamReadBucketD =>
    obtain ⟨s', hmem, hrun⟩ := traced_goes_on hgo
      (silent_traceBlock h .treeOpamMd (readLE64 m callArgs) 0#64)
      (h.returnBucket edgeCall .treeOpam (readLE64 m callArgs)) (indexed edgeCall m callArgs)
    rw [call, StoreHost.opamReadBucketD, run_withIndex hargs, hrun]
    exact ⟨_, _, rfl, fun _ _ => congrFun hmem _, fun _ _ => congrFun hmem _⟩
  | roramReadBlock =>
    obtain ⟨s', hmem, hrun⟩ := traced_goes_on hgo
      (silent_traceBlock h .treeRoramD (readLE64 m callArgs) (readLE64 m (callArgs + 8#64))) (do
        note (.block .treeRoramD (readLE64 m callArgs) (readLE64 m (callArgs + 8#64)))
        h.returnWrapped edgeCall (h.stores.blockAddress .treeRoramD (readLE64 m callArgs)
          (readLE64 m (callArgs + 8#64))) Store.treeRoramD.sizeofBlock)
      ((loadRequestWord (callArgs + 8#64)).run (indexed edgeCall m callArgs)).2
    rw [call, StoreHost.roramReadBlock, run_withIndex hargs, Handled.run_bind,
      show ((loadRequestWord (callArgs + 8#64)).run (indexed edgeCall m callArgs)).1 =
        readLE64 m (callArgs + 8#64) from rfl, hrun]
    exact ⟨_, _, rfl, fun _ _ => congrFun hmem _, fun _ _ => congrFun hmem _⟩
  | writeBuckets => exact hdata.elim
  | opamWriteBuckets => exact hdata.elim
  | opamWriteBucketsD => exact hdata.elim
  | opamWriteBucketsMd => exact hdata.elim
  | roramWriteBucketInit => exact hdata.elim

/-- `opam_write_buckets_md` sets its status when block and metadata are in place. -/
theorem opamWriteBucketsMd_sets (hargs : h.g.edgeCallGetPtrFromOffset
    (readLE64 m edgeCall.callArgOffset) (readLE64 m edgeCall.callArgSize) = some callArgs) :
    ∃ s rest, Silent rest ∧ (h.opamWriteBucketsMd edgeCall).run ⟨⟨m, [], []⟩, []⟩ =
        (do setCallStatus edgeCall callStatusOk; rest).run s ∧
      s.touched.mem = opamWriteBucketsMd.asked h m callArgs := by
  have hsource : readLE64 (fun o => m (callArgs + 8#64 + o)) 16#64 =
      readLE64 m (callArgs + 24#64) := by
    rw [readLE64_local, BitVec.add_assoc]
    rfl
  have hblock : h.stores.blockAddress .treeOpamMd (readLE64 m callArgs) 0#64 =
      h.stores.address .treeOpamMd (readLE64 m callArgs) := by
    rw [Stores.blockAddress, BitVec.zero_mul, BitVec.add_zero]
  rw [StoreHost.opamWriteBucketsMd, run_withIndex hargs, Handled.run_bind, run_loadRequest]
  dsimp only [indexed]
  rw [hsource, hblock, Handled.run_bind, Handled.run_bind, Handled.run_bind, Handled.run_bind,
    Handled.run_bind, Handled.run_bind, Handled.run_bind]
  refine ⟨_, _, fun _ => ⟨rfl, [.block .treeOpamMd (readLE64 m callArgs) 0#64], rfl, ?_⟩, rfl, rfl⟩
  simp

/-- **A handler that returns no data** ends with an OK, after it has stored what was asked
for. -/
theorem sets_of_not_stops (hargs : h.g.edgeCallGetPtrFromOffset
    (readLE64 m edgeCall.callArgOffset) (readLE64 m edgeCall.callArgSize) = some callArgs)
    {x : Handler} (hdata : ¬ x.ReturnsData) (hgo : ¬ x.Stops h m callArgs) :
    ∃ s rest, Silent rest ∧ (x.call h edgeCall).run ⟨⟨m, [], []⟩, []⟩ =
        (do setCallStatus edgeCall callStatusOk; rest).run s ∧
      s.touched.mem = x.asked h m callArgs := by
  cases x with
  | writeBuckets =>
    rw [call, StoreHost.writeBuckets, run_withIndex hargs]
    exact ⟨_, _, silent_pure, rfl, rfl⟩
  | opamWriteBuckets =>
    rw [call, StoreHost.opamWriteBuckets, run_withIndex hargs]
    exact ⟨_, _, silent_pure, rfl, rfl⟩
  | opamWriteBucketsD =>
    -- the status is set before the trace
    rw [call, StoreHost.opamWriteBucketsD, run_withIndex hargs, Handled.run_bind]
    exact ⟨_, _, silent_traced h (silent_traceBlock h _ _ _) silent_pure, rfl, rfl⟩
  | opamWriteBucketsMd => exact opamWriteBucketsMd_sets hargs
  | roramWriteBucketInit =>
    obtain ⟨s', hmem, hrun⟩ := traced_goes_on hgo
      (silent_traceBlocks h .treeRoramD (readLE64 m callArgs) Store.treeRoramD.blocks)
      (setCallStatus edgeCall callStatusOk)
      ((h.copyBucket .treeRoramD (readLE64 m callArgs) (callArgs + 8#64)).run
        (indexed edgeCall m callArgs)).2
    rw [call, StoreHost.roramWriteBucketInit, run_withIndex hargs, Handled.run_bind, hrun]
    exact ⟨_, _, silent_pure, rfl, hmem⟩
  | getEnclaveContentFromEpmWrapper => exact absurd trivial hdata
  | getHostContentFromUtmWrapper => exact absurd trivial hdata
  | readBucket => exact absurd trivial hdata
  | opamReadBucketMd => exact absurd trivial hdata
  | opamReadBucketD => exact absurd trivial hdata
  | roramReadBlock => exact absurd trivial hdata

theorem replyLen_eq_zero_iff (x : Handler) : x.replyLen = 0 ↔ ¬ x.ReturnsData := by
  cases x <;> simp [replyLen, ReturnsData, Store.sizeof, Store.blocks, Store.sizeofBlock]

/-- **A handler that its trace does not stop does its work**, whether or not the elements that
the request names exist. -/
theorem done_of_not_stops (hargs : h.g.edgeCallGetPtrFromOffset
    (readLE64 m edgeCall.callArgOffset) (readLE64 m edgeCall.callArgSize) = some callArgs)
    {x : Handler} (hgo : ¬ x.Stops h m callArgs) {m' : Mem}
    (hm' : ((x.call h edgeCall).run ⟨⟨m, [], []⟩, []⟩).2.touched.mem = m') :
    x.Done h edgeCall m callArgs m' := by
  by_cases hdata : x.ReturnsData
  · obtain ⟨s, ptr, hrun, hasked, hpayload⟩ := returns_of_not_stops hargs hdata hgo
    rw [hrun] at hm'
    obtain ⟨hreply, hcopied⟩ := returnWrapped_mem h edgeCall ptr x.replyLen_lt s hm'
    have hlen : x.replyLen ≠ 0 := fun hzero => x.replyLen_eq_zero_iff.mp hzero hdata
    constructor
    · rw [answer, if_neg hlen]
      refine (hasked.mono ?_).trans (hreply.mono ?_)
      · simp
      · simp
    · intro i hi hout
      exact (hcopied i hi hout).trans (hpayload i hi)
  · obtain ⟨s, rest, hrest, hrun, hasked⟩ := sets_of_not_stops hargs hdata hgo
    have hlen : x.replyLen = 0 := x.replyLen_eq_zero_iff.mpr hdata
    constructor
    · rw [answer, if_pos hlen, ← hm', hrun, Handled.run_bind, (hrest _).1, ← hasked]
      exact eqOutside_setCallStatus _ _
    · intro i hi
      rw [hlen] at hi
      exact absurd hi (Nat.not_lt_zero i)

end

end Handler

end KeystoneSdk
