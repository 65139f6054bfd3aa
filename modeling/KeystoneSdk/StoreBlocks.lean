/-
Every block of memory that a handler of the stores reads or writes is one of its notes
(`edge_wrapper.cpp`).

* `Access.Covers` — the block that a note is about;
* `StoreHost.Own` — the blocks without a note: the call, the local variable and the reply;
* `Noted`, `Notes` — a log whose blocks have notes, and the computations that keep it so;
* **`Handler.noted_call`** — all handlers;
* `Handler.blocks_inRange` — what a request that fits reads and writes.
-/
import KeystoneSdk.BucketStores

open ByteMemory AccessLog

namespace KeystoneSdk

/-! ### Notes -/

/-- The note is about memory that the block `b` lies in. -/
def Access.Covers (stores : Stores) (b : Addr × ℕ) : Access → Prop
  | request a n => (⟨a, n⟩ : Span).Covers b.1 b.2
  | bucket st i => (⟨stores.address st i, st.sizeof⟩ : Span).Covers b.1 b.2
  | block st i j => (⟨stores.blockAddress st i j, st.sizeofBlock⟩ : Span).Covers b.1 b.2
  | status _ => False
  | trace _ => False

/-- A field of the call, the local variable, or the header or payload of the reply. -/
def StoreHost.Own (h : StoreHost) (edgeCall : EdgeCallPtr) (b : Addr × ℕ) : Prop :=
  (⟨edgeCall, sizeofEdgeCall⟩ : Span).Covers b.1 b.2 ∨ b.1 = h.frame ∨
    b.1 = h.g.edgeCallDataPtr ∨ b.1 = h.g.wrappedDataPtr

/-- The block is the handler's own, or one of the notes is about it. -/
def StoreHost.HasNote (h : StoreHost) (edgeCall : EdgeCallPtr) (notes : List Access)
    (b : Addr × ℕ) : Prop :=
  h.Own edgeCall b ∨ ∃ y ∈ notes, y.Covers h.stores b

/-- Every block read or written so far has a note. -/
def Noted (h : StoreHost) (edgeCall : EdgeCallPtr) (s : Handled) : Prop :=
  ∀ b ∈ s.touched.reads ++ s.touched.writes, h.HasNote edgeCall s.accesses b

/-- With the notes `A`, the blocks of a computation have notes. -/
def Notes (h : StoreHost) (edgeCall : EdgeCallPtr) (A : List Access) {α : Type}
    (x : HandlerM α) : Prop :=
  ∀ s, A ⊆ s.accesses → Noted h edgeCall s →
    A ⊆ (x.run s).2.accesses ∧ Noted h edgeCall (x.run s).2

section Notes

variable {h : StoreHost} {edgeCall : EdgeCallPtr} {A : List Access}

/-- A field of the call. -/
theorem own_field {o : ℕ} (ho : o + 8 ≤ sizeofEdgeCall) :
    h.HasNote edgeCall A (edgeCall + BitVec.ofNat 64 o, 8) :=
  Or.inl (Or.inl (Span.covers_block _ ho (by decide)))

theorem own_frame (n : ℕ) : h.HasNote edgeCall A (h.frame, n) := Or.inl (Or.inr (Or.inl rfl))

theorem hasNote_of_mem {y : Access} (hy : y ∈ A) {b : Addr × ℕ} (hb : y.Covers h.stores b) :
    h.HasNote edgeCall A b := Or.inr ⟨y, hy, hb⟩

theorem notes_pure {α : Type} (x : α) : Notes h edgeCall A (pure x : HandlerM α) :=
  fun _ hA hs => ⟨hA, hs⟩

theorem Notes.bind {α β : Type} {x : HandlerM α} {f : α → HandlerM β} (hx : Notes h edgeCall A x)
    (hf : ∀ a, Notes h edgeCall A (f a)) : Notes h edgeCall A (x >>= f) := by
  intro s hA hs
  obtain ⟨hA', hs'⟩ := hx s hA hs
  exact hf _ _ hA' hs'

/-- What follows a note can count on it. -/
theorem notes_note {α : Type} (y : Access) {x : HandlerM α} (hx : Notes h edgeCall (y :: A) x) :
    Notes h edgeCall A (do note y; x) := by
  intro s hA hs
  have hstart : Noted h edgeCall ((note y).run s).2 := by
    intro b hb
    rcases hs b hb with hown | ⟨z, hz, hcovers⟩
    · exact Or.inl hown
    · exact Or.inr ⟨z, List.mem_append_left _ hz, hcovers⟩
  have hnotes : y :: A ⊆ ((note y).run s).2.accesses := by
    refine List.cons_subset.mpr ⟨List.mem_append_right _ (List.mem_singleton.mpr rfl), ?_⟩
    exact fun z hz => List.mem_append_left _ (hA hz)
  obtain ⟨hend, hnoted⟩ := hx _ hnotes hstart
  exact ⟨(List.cons_subset.mp hend).2, hnoted⟩

/-- **One step on the memory**: all its blocks have notes. -/
theorem notes_touch {α : Type} {x : TouchM α} (hx : TouchesOnly (h.HasNote edgeCall A) x) :
    Notes h edgeCall A (touch x) := by
  intro s hA hs
  refine ⟨hA, fun b hb => ?_⟩
  rcases hx s.touched b hb with hold | hown | ⟨y, hy, hcovers⟩
  · exact hs b hold
  · exact Or.inl hown
  · exact Or.inr ⟨y, hA hy, hcovers⟩

theorem notes_note_only (y : Access) : Notes h edgeCall A (note y) := notes_note y (notes_pure ())

theorem notes_loadRequestWord (a : Addr) : Notes h edgeCall A (loadRequestWord a) :=
  notes_note _ (notes_touch (touchesOnly_loadWord
    (hasNote_of_mem (List.mem_cons_self ..) (Span.covers_prefix a le_rfl (by decide)))))

theorem notes_loadRequest (a : Addr) {n : ℕ} (hn : n ≤ 2 ^ 64) :
    Notes h edgeCall A (loadRequest a n) := by
  refine notes_note _ (Notes.bind (notes_touch ?_) fun _ s hA hs => ⟨hA, hs⟩)
  intro s b hb
  simp only [List.mem_append] at hb ⊢
  rcases hb with hb | hb
  · rcases List.mem_append.mp hb with hb | hb
    · exact Or.inl (Or.inl hb)
    · obtain rfl := List.mem_singleton.mp hb
      exact Or.inr (hasNote_of_mem (List.mem_cons_self ..) (Span.covers_prefix a le_rfl hn))
  · exact Or.inl (Or.inr hb)

theorem notes_setCallStatus (v : BitVec 64) : Notes h edgeCall A (setCallStatus edgeCall v) :=
  notes_note _ (notes_touch (touchesOnly_storeBytes (own_field (o := 24) (by decide)) _))

theorem notes_withArgs {body : Addr → HandlerM Unit} (hbody : ∀ a, Notes h edgeCall A (body a)) :
    Notes h edgeCall A (h.withArgs edgeCall body) := by
  have hptr : TouchesOnly (h.HasNote edgeCall A) (h.g.edgeCallArgsPtr edgeCall) :=
    (touchesOnly_loadWord (own_field (o := 8) (by decide))).bind fun _ =>
      (touchesOnly_loadWord (own_field (o := 16) (by decide))).bind fun _ => touchesOnly_pure _
  refine (notes_touch hptr).bind fun callArgs => ?_
  rcases callArgs with _ | callArgs
  · exact notes_setCallStatus _
  · exact hbody callArgs

/-- The payload of a reply must have a note. -/
theorem notes_returnWrapped {ptr : Addr} {size : ℕ}
    (hptr : h.HasNote edgeCall A (ptr, (BitVec.ofNat 64 size).toNat)) :
    Notes h edgeCall A (h.returnWrapped edgeCall ptr size) := by
  have hoffset : TouchesOnly (h.HasNote edgeCall A) (h.g.storeRetOffset edgeCall h.g.edgeCallDataPtr
      (BitVec.ofNat 64 sizeofEdgeData)) := by
    rw [EdgeGlobals.storeRetOffset]
    rcases h.g.edgeCallGetOffsetFromPtr h.g.edgeCallDataPtr (BitVec.ofNat 64 sizeofEdgeData) with
      valid | offset
    · exact touchesOnly_pure _
    · exact (touchesOnly_storeBytes (own_field (o := 32) (by decide)) _).bind fun _ =>
        touchesOnly_pure _
  have hsetup : TouchesOnly (h.HasNote edgeCall A)
      (h.g.edgeCallSetupWrappedRet edgeCall ptr (BitVec.ofNat 64 size) h.dataWrapper) := by
    rw [EdgeGlobals.edgeCallSetupWrappedRet]
    refine (touchesOnly_copyBytes hptr (Or.inl (Or.inr (Or.inr (Or.inr rfl))))).bind fun _ => ?_
    refine (touchesOnly_storeBytes (Or.inl (Or.inr (Or.inr (Or.inl rfl)))) _).bind fun _ => ?_
    exact (touchesOnly_storeBytes (own_field (o := 40) (by decide)) _).bind fun _ => hoffset
  refine (notes_touch hsetup).bind fun setup => ?_
  split
  · exact notes_setCallStatus _
  · exact notes_setCallStatus _

theorem sizeof_le (st : Store) : st.sizeof ≤ 2 ^ 64 := by
  cases st <;> decide

/-- The block of a note about an element. -/
theorem bucket_covers {st : Store} {i : BitVec 64} {n : ℕ} (hn : n ≤ st.sizeof) :
    (Access.bucket st i).Covers h.stores (h.stores.address st i, n) :=
  Span.covers_prefix _ hn (sizeof_le st)

theorem block_covers {st : Store} {i j : BitVec 64} {n : ℕ} (hn : n ≤ st.sizeofBlock) :
    (Access.block st i j).Covers h.stores (h.stores.blockAddress st i j, n) := by
  have hle : st.sizeofBlock ≤ 2 ^ 64 := by
    cases st <;> decide
  exact Span.covers_prefix _ hn hle

theorem notes_returnBucket (st : Store) (i : BitVec 64) :
    Notes h edgeCall A (h.returnBucket edgeCall st i) :=
  notes_note _ (notes_returnWrapped (hasNote_of_mem (List.mem_cons_self ..) (bucket_covers
    (le_of_eq_of_le (BitVec.toNat_ofNat _ _) (Nat.mod_le _ _)))))

theorem notes_copyBucket (st : Store) (i : BitVec 64) (src : Addr) :
    Notes h edgeCall A (h.copyBucket st i src) := by
  refine notes_note _ (notes_note _ (notes_touch (touchesOnly_copyBytes ?_ ?_)))
  · exact hasNote_of_mem (List.mem_cons_of_mem _ (List.mem_cons_self ..))
      (Span.covers_prefix _ le_rfl (sizeof_le st))
  · exact hasNote_of_mem (List.mem_cons_self ..) (bucket_covers le_rfl)

theorem notes_traced {trace rest : HandlerM Unit} (htrace : Notes h edgeCall A trace)
    (hrest : Notes h edgeCall A rest) : Notes h edgeCall A (h.traced trace rest) := by
  unfold StoreHost.traced
  split
  · split
    · exact htrace.bind fun _ => hrest
    · exact notes_pure _
  · exact hrest

theorem notes_traceBlock (st : Store) (i j : BitVec 64) :
    Notes h edgeCall A (h.traceBlock st i j) := by
  have hword : 8 ≤ st.sizeofBlock := by
    cases st <;> decide
  exact notes_note _ (Notes.bind (notes_touch (touchesOnly_loadWord
    (hasNote_of_mem (List.mem_cons_self ..) (block_covers hword)))) fun _ => notes_note_only _)

theorem notes_traceBlocks (st : Store) (i : BitVec 64) (n : ℕ) :
    Notes h edgeCall A (h.traceBlocks st i n) := by
  induction n with
  | zero => exact notes_pure _
  | succ n ih => exact ih.bind fun _ => notes_traceBlock st i _

end Notes

/-! ### The handlers -/

namespace Handler

variable (h : StoreHost) (edgeCall : EdgeCallPtr)

/-- The page is moved, and the word of its metadata set, under notes of their own. -/
theorem notes_opamWriteBucketsMd : Notes h edgeCall [] (h.opamWriteBucketsMd edgeCall) := by
  refine notes_withArgs fun callArgs => (notes_loadRequestWord _).bind fun treeIndex =>
    (notes_loadRequest _ (sizeof_le _)).bind fun bucMd => ?_
  refine notes_note _ (Notes.bind (notes_touch (touchesOnly_storeBytes ?_ _)) fun _ => ?_)
  · exact hasNote_of_mem (List.mem_cons_self ..) (bucket_covers le_rfl)
  refine notes_note _ (notes_note _ (Notes.bind (notes_touch (touchesOnly_copyBytes ?_ ?_))
    fun _ => ?_))
  · exact hasNote_of_mem (List.mem_cons_of_mem _ (List.mem_cons_self ..)) (bucket_covers le_rfl)
  · exact hasNote_of_mem (List.mem_cons_self ..) (bucket_covers le_rfl)
  refine notes_note _ (Notes.bind (notes_touch (touchesOnly_storeBytes ?_ _)) fun _ => ?_)
  · have hindex : 16 + 8 ≤ Store.treeOpamMd.sizeofBlock := by decide
    exact hasNote_of_mem (List.mem_cons_self ..) (Span.covers_block _ hindex (by decide))
  refine (notes_setCallStatus _).bind fun _ => notes_note _ (Notes.bind (notes_touch
    (touchesOnly_loadWord ?_)) fun _ => notes_pure _)
  have hword : 8 ≤ Store.treeOpamMd.sizeofBlock := by decide
  exact hasNote_of_mem (List.mem_cons_self ..) (block_covers hword)

theorem notes_call (x : Handler) : Notes h edgeCall [] (x.call h edgeCall) := by
  -- each note comes before its block is touched, and covers it
  cases x with
  | getEnclaveContentFromEpmWrapper =>
    refine notes_withArgs fun callArgs => (notes_loadRequest _ (sizeof_le _)).bind fun p => ?_
    refine notes_note _ (Notes.bind (notes_touch (touchesOnly_storeBytes ?_ _)) fun _ => ?_)
    · exact hasNote_of_mem (List.mem_cons_self ..) (bucket_covers le_rfl)
    · exact (notes_touch (touchesOnly_storeBytes (own_frame _) _)).bind fun _ =>
        notes_returnWrapped (own_frame _)
  | getHostContentFromUtmWrapper =>
    refine notes_withArgs fun callArgs => (notes_loadRequestWord _).bind fun page => ?_
    refine notes_note _ (Notes.bind (notes_touch (touchesOnly_copyBytes ?_ (own_frame _)))
      fun _ => ?_)
    · exact hasNote_of_mem (List.mem_cons_self ..) (bucket_covers le_rfl)
    · exact notes_returnWrapped (own_frame _)
  | readBucket =>
    refine notes_withArgs fun callArgs => (notes_loadRequestWord _).bind fun treeIndex => ?_
    dsimp only
    split
    · exact notes_traced (notes_note_only _) (notes_returnBucket _ _)
    · exact notes_returnBucket _ _
  | writeBuckets =>
    exact notes_withArgs fun callArgs => (notes_loadRequestWord _).bind fun treeIndex =>
      (notes_copyBucket _ _ _).bind fun _ => notes_setCallStatus _
  | opamWriteBuckets =>
    exact notes_withArgs fun callArgs => (notes_loadRequestWord _).bind fun treeIndex =>
      (notes_copyBucket _ _ _).bind fun _ => notes_setCallStatus _
  | opamReadBucketMd =>
    exact notes_withArgs fun callArgs => (notes_loadRequestWord _).bind fun treeIndex =>
      notes_returnBucket _ _
  | opamReadBucketD =>
    exact notes_withArgs fun callArgs => (notes_loadRequestWord _).bind fun treeIndex =>
      notes_traced (notes_traceBlock _ _ _) (notes_returnBucket _ _)
  | opamWriteBucketsD =>
    exact notes_withArgs fun callArgs => (notes_loadRequestWord _).bind fun treeIndex =>
      (notes_copyBucket _ _ _).bind fun _ => (notes_setCallStatus _).bind fun _ =>
        notes_traced (notes_traceBlock _ _ _) (notes_pure _)
  | opamWriteBucketsMd => exact notes_opamWriteBucketsMd h edgeCall
  | roramWriteBucketInit =>
    exact notes_withArgs fun callArgs => (notes_loadRequestWord _).bind fun treeIndex =>
      (notes_copyBucket _ _ _).bind fun _ =>
        notes_traced (notes_traceBlocks _ _ _) (notes_setCallStatus _)
  | roramReadBlock =>
    refine notes_withArgs fun callArgs => (notes_loadRequestWord _).bind fun treeIndex =>
      (notes_loadRequestWord _).bind fun offset => notes_traced (notes_traceBlock _ _ _) ?_
    have hsize : (BitVec.ofNat 64 Store.treeRoramD.sizeofBlock).toNat ≤
        Store.treeRoramD.sizeofBlock := by decide
    exact notes_note _ (notes_returnWrapped (hasNote_of_mem (List.mem_cons_self ..)
      (block_covers hsize)))

/-- **Every block that a handler reads or writes has a note**, or is its own. -/
theorem noted_call (m : Mem) (x : Handler) :
    Noted h edgeCall ((x.call h edgeCall).run ⟨⟨m, [], []⟩, []⟩).2 :=
  (notes_call h edgeCall x _ (List.nil_subset _) fun _ hb => absurd hb List.not_mem_nil).2

variable {h edgeCall}

/-- The memory that a note in range is about lies in the argument or in an array. -/
theorem covers_of_inRange {args : Span} {y : Access} (hy : y.InRange h.stores args)
    {b : Addr × ℕ} (hb : y.Covers h.stores b) :
    args.Covers b.1 b.2 ∨ ∃ st, (h.stores.region st).Covers b.1 b.2 := by
  cases y with
  | request a n => exact Or.inl (Span.Covers.trans hy hb)
  | bucket st i => exact Or.inr ⟨st, Span.Covers.trans hy.2 hb⟩
  | block st i j => exact Or.inr ⟨st, Span.Covers.trans hy.2.2 hb⟩
  | status v => exact hb.elim
  | trace v => exact hb.elim

/-- **A request that fits** makes its handler read and write the argument, the arrays and the
handler's own memory, and nothing else. -/
theorem blocks_inRange {m : Mem} {callArgs : Addr}
    (hargs : h.g.edgeCallGetPtrFromOffset (readLE64 m edgeCall.callArgOffset)
      (readLE64 m edgeCall.callArgSize) = some callArgs) {x : Handler}
    (hfits : x.Fits h m callArgs (readLE64 m edgeCall.callArgSize).toNat) {s : Handled}
    (hs : ((x.call h edgeCall).run ⟨⟨m, [], []⟩, []⟩).2 = s) :
    ∀ b ∈ s.touched.reads ++ s.touched.writes, h.Own edgeCall b ∨
      (⟨callArgs, (readLE64 m edgeCall.callArgSize).toNat⟩ : Span).Covers b.1 b.2 ∨
      ∃ st, (h.stores.region st).Covers b.1 b.2 := by
  have hinRange : ∀ y ∈ x.accesses h edgeCall m,
      y.InRange h.stores ⟨callArgs, (readLE64 m edgeCall.callArgSize).toNat⟩ :=
    (all_call hargs (fun _ => trivial) (fun _ => trivial) x).mpr
      ((reaches_inRange_iff ..).mpr hfits)
  have hnoted := noted_call h edgeCall m x
  rw [accesses, hs] at hinRange
  rw [hs] at hnoted
  intro b hb
  rcases hnoted b hb with hown | ⟨y, hy, hcovers⟩
  · exact Or.inl hown
  · exact Or.inr (covers_of_inRange (hinRange y hy) hcovers)

end Handler

end KeystoneSdk
