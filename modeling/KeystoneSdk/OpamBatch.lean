/-
Batches of `opam_write_buckets_md` requests (`edge_wrapper.cpp`, `common.h`).

A request stores the metadata of a block at an index of `tree_opam_md` and moves
the block itself, from the index inside the metadata, to the same index of
`tree_opam`.

* `OpamTrees.opamWriteBucketsMd` — the handler, on the two arrays;
* `opamWriteBucketsMd_trees` — the handler in memory does that to the arrays;
* **`opamTrees_processBatch`** — and so do the calls of a batch, one after the other;
* `DataFollows` — every block arrived where its metadata is, in one piece;
* **`opamBatch_follows_iff`** — which batches keep data and metadata together
  whatever the order: those in which no request overwrites what another moves.
-/
import KeystoneSdk.SequentialCopies
import KeystoneSdk.StoreRequests

open ByteMemory AccessLog

namespace KeystoneSdk

/-! ### The trees -/

/-- `Block_opam_md`, the only block of a `Bucket_opam_md`. -/
structure BlockOpamMd where
  enclavVaddr : BitVec 64
  version : BitVec 64
  treeIndex : BitVec 64
  stashIndex : BitVec 64
  iv : Fin 16 → Byte
  pHash : Fin 32 → Byte
  ivd : Fin 16 → Byte
  pHashD : Fin 32 → Byte

/-- `Block_opam`, the only block of a `Bucket_opam`: a page. -/
abbrev BlockOpam := Fin 4096 → Byte

/-- `tree_opam_md` and `tree_opam`. -/
@[ext] structure OpamTrees (n : ℕ) where
  treeOpamMd : Fin n → BlockOpamMd
  treeOpam : Fin n → BlockOpam

/-- The argument of `opam_write_buckets_md`, with indices in range. -/
structure MdRequest (n : ℕ) where
  treeIndex : Fin n
  bucMd : BlockOpamMd
  source_lt : bucMd.treeIndex.toNat < n

/-- Where the block was before. -/
def MdRequest.source {n : ℕ} (r : MdRequest n) : Fin n := ⟨r.bucMd.treeIndex.toNat, r.source_lt⟩

namespace OpamTrees

variable {n : ℕ}

/-- `opam_write_buckets_md`, on the arrays. -/
def opamWriteBucketsMd (t : OpamTrees n) (r : MdRequest n) : OpamTrees n where
  treeOpamMd := Function.update t.treeOpamMd r.treeIndex
    { r.bucMd with treeIndex := BitVec.ofNat 64 r.treeIndex }
  treeOpam := Function.update t.treeOpam r.treeIndex (t.treeOpam r.source)

theorem treeOpamMd_self (t : OpamTrees n) (r : MdRequest n) :
    (t.opamWriteBucketsMd r).treeOpamMd r.treeIndex =
      { r.bucMd with treeIndex := BitVec.ofNat 64 r.treeIndex } := Function.update_self ..

theorem treeOpamMd_of_ne (t : OpamTrees n) {r : MdRequest n} {i : Fin n} (h : i ≠ r.treeIndex) :
    (t.opamWriteBucketsMd r).treeOpamMd i = t.treeOpamMd i := Function.update_of_ne h ..

theorem treeOpam_self (t : OpamTrees n) (r : MdRequest n) :
    (t.opamWriteBucketsMd r).treeOpam r.treeIndex = t.treeOpam r.source := Function.update_self ..

theorem treeOpam_of_ne (t : OpamTrees n) {r : MdRequest n} {i : Fin n} (h : i ≠ r.treeIndex) :
    (t.opamWriteBucketsMd r).treeOpam i = t.treeOpam i := Function.update_of_ne h ..

/-- Process requests one after the other. -/
def processBatch (t : OpamTrees n) (order : List (MdRequest n)) : OpamTrees n :=
  order.foldl opamWriteBucketsMd t

end OpamTrees

/-- Data follows its metadata: the blocks are where the requests put them, with metadata that
says so, and nothing else has changed. -/
structure DataFollows {n : ℕ} (t : OpamTrees n) (batch : List (MdRequest n)) (t' : OpamTrees n) :
    Prop where
  data : ∀ r ∈ batch, t'.treeOpam r.treeIndex = t.treeOpam r.source
  index : ∀ r ∈ batch, (t'.treeOpamMd r.treeIndex).treeIndex = BitVec.ofNat 64 r.treeIndex
  others : ∀ i, (∀ r ∈ batch, i ≠ r.treeIndex) →
    t'.treeOpam i = t.treeOpam i ∧ t'.treeOpamMd i = t.treeOpamMd i

/-! ### Batches -/

section Batch

open SequentialCopies

variable {n : ℕ} (t : OpamTrees n)

/-- What a request does to `tree_opam`. -/
def MdRequest.move (r : MdRequest n) : Move (Fin n) := ⟨r.treeIndex, r.source⟩

theorem treeOpam_processBatch (order : List (MdRequest n)) :
    (t.processBatch order).treeOpam = run MdRequest.move t.treeOpam order := by
  induction order generalizing t with
  | nil => rfl
  | cons r order ih => exact ih (t.opamWriteBucketsMd r)

/-- Metadata at other indices is left alone. -/
theorem treeOpamMd_processBatch_of_notMem {order : List (MdRequest n)} {i : Fin n}
    (h : ∀ r ∈ order, i ≠ r.treeIndex) : (t.processBatch order).treeOpamMd i = t.treeOpamMd i := by
  induction order generalizing t with
  | nil => rfl
  | cons r order ih =>
    refine (ih (t.opamWriteBucketsMd r) fun r' hr' => h r' (List.mem_cons_of_mem _ hr')).trans ?_
    exact t.treeOpamMd_of_ne (h r (List.mem_cons_self ..))

/-- The index of an entry says where the entry is, once a request wrote it. -/
theorem treeIndex_processBatch {order : List (MdRequest n)} {i : Fin n}
    (h : (t.treeOpamMd i).treeIndex = BitVec.ofNat 64 i ∨ ∃ r ∈ order, i = r.treeIndex) :
    ((t.processBatch order).treeOpamMd i).treeIndex = BitVec.ofNat 64 i := by
  induction order generalizing t with
  | nil =>
    rcases h with h | ⟨r, hr, _⟩
    · exact h
    · exact absurd hr List.not_mem_nil
  | cons r order ih =>
    refine ih (t.opamWriteBucketsMd r) ?_
    by_cases hi : i = r.treeIndex
    · refine Or.inl ?_
      subst hi
      rw [OpamTrees.treeOpamMd_self]
    · rcases h with h | ⟨r', hr', he⟩
      · refine Or.inl ?_
        rw [OpamTrees.treeOpamMd_of_ne t hi, h]
      · rcases List.mem_cons.mp hr' with rfl | hr'
        · exact absurd he hi
        · exact Or.inr ⟨r', hr', he⟩

/-- Only the data depends on the order. -/
theorem dataFollows_iff {batch order : List (MdRequest n)} (ho : order.Perm batch) :
    DataFollows t batch (t.processBatch order) ↔
      Parallel MdRequest.move t.treeOpam batch (run MdRequest.move t.treeOpam order) := by
  rw [← treeOpam_processBatch]
  constructor
  · exact DataFollows.data
  · intro h
    refine ⟨h, fun r hr => ?_, fun i hi => ?_⟩
    · exact treeIndex_processBatch t (Or.inr ⟨r, ho.symm.subset hr, rfl⟩)
    · have hi' : ∀ r ∈ order, i ≠ r.treeIndex := fun r hr => hi r (ho.subset hr)
      refine ⟨?_, treeOpamMd_processBatch_of_notMem t hi'⟩
      rw [treeOpam_processBatch]
      exact run_of_notMem _ _ hi'

/-- **Data follows its metadata whatever the order** iff no request of the batch overwrites a
block that another one moves, unless with an equal block. -/
theorem opamBatch_follows_iff (batch : List (MdRequest n))
    (hdest : (batch.map MdRequest.treeIndex).Nodup) :
    (∀ order, order.Perm batch → DataFollows t batch (t.processBatch order)) ↔
      ∀ r ∈ batch, ∀ r' ∈ batch, r.treeIndex ≠ r'.treeIndex → r'.source = r.treeIndex →
        t.treeOpam r.source = t.treeOpam r.treeIndex := by
  have hd : Distinct MdRequest.move batch := hdest
  have hall : (∀ order, order.Perm batch → DataFollows t batch (t.processBatch order)) ↔
      ∀ order, order.Perm batch →
        Parallel MdRequest.move t.treeOpam batch (run MdRequest.move t.treeOpam order) :=
    forall₂_congr fun order ho => dataFollows_iff t ho
  rw [hall, parallel_iff MdRequest.move t.treeOpam hd]
  constructor
  · intro h r hr r' hr' hne
    exact h r hr r' hr' fun he => hne (he ▸ rfl)
  · intro h r hr r' hr' hne
    refine h r hr r' hr' fun he => hne ?_
    exact List.inj_on_of_nodup_map hdest hr hr' he

end Batch

/-- Blocks 0 and 1 hold different pages, and two requests swap them. -/
def swapTrees : OpamTrees Store.treeOpam.treeSize where
  treeOpamMd := fun _ => ⟨0#64, 0#64, 0#64, 0#64, fun _ => 0, fun _ => 0, fun _ => 0, fun _ => 0⟩
  treeOpam := fun i _ => BitVec.ofNat 8 i

/-- A request that moves block `source` to `dest`. -/
def moveRequest (dest source : Fin Store.treeOpam.treeSize) : MdRequest Store.treeOpam.treeSize where
  treeIndex := dest
  bucMd := ⟨0x1000#64, 1#64, BitVec.ofNat 64 source, 0#64, fun _ => 0, fun _ => 0, fun _ => 0,
    fun _ => 0⟩
  source_lt := by
    have hlt : source.val < 262144 := source.isLt
    have hsource : (BitVec.ofNat 64 source.val).toNat = source.val := by
      rw [BitVec.toNat_ofNat, Nat.mod_eq_of_lt (by omega)]
    exact lt_of_eq_of_lt hsource source.isLt

def block0 : Fin Store.treeOpam.treeSize := ⟨0, by decide⟩
def block1 : Fin Store.treeOpam.treeSize := ⟨1, by decide⟩
def block2 : Fin Store.treeOpam.treeSize := ⟨2, by decide⟩

/-- A swap loses a block, in either order. -/
theorem swap_loses_block :
    ¬ ∀ order, order.Perm [moveRequest block0 block1, moveRequest block1 block0] →
      DataFollows swapTrees [moveRequest block0 block1, moveRequest block1 block0]
        (swapTrees.processBatch order) := by
  intro h
  have hdata := (h _ (List.Perm.refl _)).data (moveRequest block1 block0) (by simp)
  have hbyte := congrFun hdata 0
  revert hbyte
  decide

theorem opamBatch_follows_iff_apart :
    DataFollows swapTrees [moveRequest block0 block2, moveRequest block1 block2]
        (swapTrees.processBatch [moveRequest block0 block2, moveRequest block1 block2]) ∧
      DataFollows swapTrees [moveRequest block0 block2, moveRequest block1 block2]
        (swapTrees.processBatch [moveRequest block1 block2, moveRequest block0 block2]) := by
  have hany := (opamBatch_follows_iff swapTrees
    [moveRequest block0 block2, moveRequest block1 block2] (by decide)).mpr ?_
  · exact ⟨hany _ (List.Perm.refl _), hany _ (List.Perm.swap ..)⟩
  intro r hr r' hr' _ he
  -- no request writes block 2
  have hsource : r'.source = block2 := by
    simp only [List.mem_cons, List.not_mem_nil, or_false] at hr'
    rcases hr' with rfl | rfl <;> decide
  have hdest : r.treeIndex ≠ block2 := by
    simp only [List.mem_cons, List.not_mem_nil, or_false] at hr
    rcases hr with rfl | rfl <;> decide
  exact absurd (he.symm.trans hsource) hdest

/-! ### The arrays in memory -/

/-- The `Block_opam_md` at an address. -/
def BlockOpamMd.ofMem (m : Mem) (a : Addr) : BlockOpamMd where
  enclavVaddr := readLE64 m a
  version := readLE64 m (a + 8#64)
  treeIndex := readLE64 m (a + 16#64)
  stashIndex := readLE64 m (a + 24#64)
  iv := fun i => m (a + BitVec.ofNat 64 (32 + i))
  pHash := fun i => m (a + BitVec.ofNat 64 (48 + i))
  ivd := fun i => m (a + BitVec.ofNat 64 (80 + i))
  pHashD := fun i => m (a + BitVec.ofNat 64 (96 + i))

/-- A block of metadata is its 128 bytes; `tree_index` may be told apart. -/
theorem BlockOpamMd.ofMem_eq {m m' : Mem} {a a' : Addr} {v : BitVec 64}
    (h : ∀ o, o < 128 → o < 16 ∨ 24 ≤ o →
      m (a + BitVec.ofNat 64 o) = m' (a' + BitVec.ofNat 64 o))
    (hindex : readLE64 m (a + 16#64) = v) :
    ofMem m a = { ofMem m' a' with treeIndex := v } := by
  have hword : ∀ k, k + 8 ≤ 16 ∨ 24 ≤ k → k + 8 ≤ 128 →
      readLE64 m (a + BitVec.ofNat 64 k) = readLE64 m' (a' + BitVec.ofNat 64 k) := by
    intro k hk hk'
    refine readLE64_congr fun i hi => ?_
    rw [BitVec.add_assoc, BitVec.add_assoc, ← BitVec.ofNat_add]
    exact h _ (by omega) (by omega)
  have hfirst := hword 0 (by omega) (by omega)
  rw [BitVec.add_zero, BitVec.add_zero] at hfirst
  rw [ofMem, ofMem, BlockOpamMd.mk.injEq]
  refine ⟨hfirst, hword 8 (by omega) (by omega), hindex, hword 24 (by omega) (by omega), ?_⟩
  refine ⟨?_, ?_, ?_, ?_⟩ <;> funext i <;> exact h _ (by omega) (by omega)

theorem BlockOpamMd.ofMem_congr {m m' : Mem} {a a' : Addr}
    (h : ∀ o, o < 128 → m (a + BitVec.ofNat 64 o) = m' (a' + BitVec.ofNat 64 o)) :
    ofMem m a = ofMem m' a' := by
  refine ofMem_eq (fun o ho _ => h o ho) (readLE64_congr fun i hi => ?_)
  rw [BitVec.add_assoc, BitVec.add_assoc, ← BitVec.ofNat_add]
  exact h _ (by omega)

/-- The two arrays, as they lie in memory. -/
def Stores.opamTrees (s : Stores) (m : Mem) : OpamTrees Store.treeOpam.treeSize where
  treeOpamMd := fun i => .ofMem m (s.address .treeOpamMd (BitVec.ofNat 64 i))
  treeOpam := fun i o =>
    m (s.address .treeOpam (BitVec.ofNat 64 i) + BitVec.ofNat 64 o)

theorem Stores.opamTrees_treeOpam (s : Stores) (m : Mem) (i : Fin Store.treeOpam.treeSize)
    (o : Fin 4096) : (s.opamTrees m).treeOpam i o =
      m (s.address .treeOpam (BitVec.ofNat 64 i) + BitVec.ofNat 64 o) := rfl

/-- Both arrays are allocated, and share no byte with each other or with `call_status`. -/
structure OpamRoom (s : Stores) (edgeCall : EdgeCallPtr) : Prop where
  md : (s.pointer .treeOpamMd).isSome
  data : (s.pointer .treeOpam).isSome
  disjoint : ∀ a, (s.region .treeOpamMd).Contains a → ¬ (s.region .treeOpam).Contains a
  status : ∀ i, i < 8 → ¬ (s.region .treeOpamMd).Contains (edgeCall.callStatus + BitVec.ofNat 64 i) ∧
    ¬ (s.region .treeOpam).Contains (edgeCall.callStatus + BitVec.ofNat 64 i)

section Elements

variable {s : Stores} {st : Store} {i j o : ℕ}

/-- Where a byte of an element lies in its array. -/
theorem offset_element (hi : i < st.treeSize) (ho : o < st.sizeof) :
    (s.region st).offset (s.address st (BitVec.ofNat 64 i) + BitVec.ofNat 64 o) =
      i * st.sizeof + o := by
  have hle : (i + 1) * st.sizeof ≤ st.treeSize * st.sizeof := Nat.mul_le_mul_right _ hi
  have hlt := Handler.treeSize_sizeof_lt st
  rw [Nat.succ_mul] at hle
  rw [Stores.address, ← BitVec.ofNat_mul, BitVec.add_assoc, ← BitVec.ofNat_add]
  exact Span.offset_start_add _ (by omega)

theorem contains_element (hs : (s.pointer st).isSome) (hi : i < st.treeSize) (ho : o < st.sizeof) :
    (s.region st).Contains (s.address st (BitVec.ofNat 64 i) + BitVec.ofNat 64 o) := by
  have hle : (i + 1) * st.sizeof ≤ st.treeSize * st.sizeof := Nat.mul_le_mul_right _ hi
  rw [Nat.succ_mul] at hle
  rw [Span.Contains, offset_element hi ho]
  show _ < s.length st * st.sizeof
  rw [Stores.length, if_pos hs]
  omega

/-- A byte that is written lies in the block that is written. -/
theorem writeBytes_of_ne (m : Mem) {a x : Addr} {n : ℕ} (f : ℕ → Byte)
    (h : ∀ k, k < n → x ≠ a + BitVec.ofNat 64 k) : writeBytes m a n f x = m x := by
  refine if_neg fun hx => h _ hx ?_
  rw [BitVec.ofNat_toNat, BitVec.setWidth_eq]
  ring

/-- Writing an element, or its first bytes, and reading a byte of the array. -/
theorem writeBytes_element (m : Mem) {n d : ℕ} (f : ℕ → Byte) (hi : i < st.treeSize)
    (hj : j < st.treeSize) (ho : o < st.sizeof) (hd : d + n ≤ st.sizeof) :
    writeBytes m (s.address st (BitVec.ofNat 64 j) + BitVec.ofNat 64 d) n f
        (s.address st (BitVec.ofNat 64 i) + BitVec.ofNat 64 o) =
      if i = j ∧ d ≤ o ∧ o < d + n then f (o - d)
      else m (s.address st (BitVec.ofNat 64 i) + BitVec.ofNat 64 o) := by
  have hlt := Handler.treeSize_sizeof_lt st
  have hsize : st.sizeof < 2 ^ 64 := by
    have hpos : 1 ≤ st.treeSize := by omega
    have hle := Nat.mul_le_mul_right st.sizeof hpos
    omega
  by_cases hin : i = j ∧ d ≤ o ∧ o < d + n
  · obtain ⟨rfl, hdo, hon⟩ := hin
    rw [if_pos ⟨rfl, hdo, hon⟩, show BitVec.ofNat 64 o = BitVec.ofNat 64 d + BitVec.ofNat 64 (o - d)
      by rw [← BitVec.ofNat_add]; congr 1; omega, ← BitVec.add_assoc]
    exact writeBytes_inside _ _ _ (by omega) (by omega)
  · rw [if_neg hin]
    refine writeBytes_of_ne m f fun k hk he => hin ?_
    -- one byte has one place in the array
    rw [BitVec.add_assoc, ← BitVec.ofNat_add] at he
    have hoffset := congrArg (s.region st).offset he
    rw [offset_element hi ho, offset_element hj (by omega)] at hoffset
    have hdiv := congrArg (· / st.sizeof) hoffset
    simp only [Nat.mul_comm _ st.sizeof, Nat.mul_add_div (show 0 < st.sizeof by omega),
      Nat.div_eq_of_lt ho, Nat.div_eq_of_lt (show d + k < st.sizeof by omega), Nat.add_zero] at hdiv
    subst hdiv
    omega

/-- Writing an element leaves what lies outside the array as it is. -/
theorem writeBytes_outside (m : Mem) {n d : ℕ} (f : ℕ → Byte) {x : Addr}
    (hs : (s.pointer st).isSome) (hj : j < st.treeSize) (hd : d + n ≤ st.sizeof)
    (hx : ¬ (s.region st).Contains x) :
    writeBytes m (s.address st (BitVec.ofNat 64 j) + BitVec.ofNat 64 d) n f x = m x := by
  refine writeBytes_of_ne m f fun k hk he => hx ?_
  rw [he, BitVec.add_assoc, ← BitVec.ofNat_add]
  exact contains_element hs hj (by omega)

end Elements

section Refines

variable {h : StoreHost} {edgeCall : EdgeCallPtr} {m : Mem} {callArgs : Addr}

/-- The memory after the handler. -/
theorem run_opamWriteBucketsMd
    (hargs : h.g.edgeCallGetPtrFromOffset (readLE64 m edgeCall.callArgOffset)
      (readLE64 m edgeCall.callArgSize) = some callArgs) :
    ((h.opamWriteBucketsMd edgeCall).run ⟨⟨m, [], []⟩, []⟩).2.touched.mem =
      writeLE64 (Handler.opamWriteBucketsMd.asked h m callArgs) edgeCall.callStatus
        callStatusOk := by
  obtain ⟨s, rest, hrest, hrun, hasked⟩ := Handler.opamWriteBucketsMd_sets hargs
  rw [hrun, Handled.run_bind, (hrest _).1, ← hasked]
  rfl

/-- The bytes of the arrays after the handler, for an index `j` and a source `k`. -/
theorem opamWriteBucketsMd_bytes (hroom : OpamRoom h.stores edgeCall)
    (hargs : h.g.edgeCallGetPtrFromOffset (readLE64 m edgeCall.callArgOffset)
      (readLE64 m edgeCall.callArgSize) = some callArgs)
    {j k : ℕ} (hj : j < Store.treeOpam.treeSize) (hk : k < Store.treeOpam.treeSize)
    (hindex : readLE64 m callArgs = BitVec.ofNat 64 j)
    (hsource : readLE64 m (callArgs + 24#64) = BitVec.ofNat 64 k) {m' : Mem}
    (hm' : ((h.opamWriteBucketsMd edgeCall).run ⟨⟨m, [], []⟩, []⟩).2.touched.mem = m') {i : ℕ}
    (hi : i < Store.treeOpam.treeSize) :
    (∀ o, o < 4096 →
      m' (h.stores.address .treeOpam (BitVec.ofNat 64 i) + BitVec.ofNat 64 o) =
        m (h.stores.address .treeOpam (BitVec.ofNat 64 (if i = j then k else i)) +
          BitVec.ofNat 64 o)) ∧
      ∀ o, o < 128 →
        m' (h.stores.address .treeOpamMd (BitVec.ofNat 64 i) + BitVec.ofNat 64 o) =
          if i = j then
            if 16 ≤ o ∧ o < 24 then byteOf (BitVec.ofNat 64 j) (o - 16)
            else m (callArgs + 8#64 + BitVec.ofNat 64 o)
          else m (h.stores.address .treeOpamMd (BitVec.ofNat 64 i) + BitVec.ofNat 64 o) := by
  have hmd : ∀ o, o < 128 → (h.stores.region .treeOpamMd).Contains
      (h.stores.address .treeOpamMd (BitVec.ofNat 64 i) + BitVec.ofNat 64 o) :=
    fun o ho => contains_element hroom.md hi ho
  have hdata : ∀ i, i < Store.treeOpam.treeSize → ∀ o, o < 4096 →
      (h.stores.region .treeOpam).Contains
        (h.stores.address .treeOpam (BitVec.ofNat 64 i) + BitVec.ofNat 64 o) :=
    fun i hi o ho => contains_element hroom.data hi ho
  -- neither array holds a byte of the other, or of the status
  have hapart : ∀ {x}, (h.stores.region .treeOpam).Contains x →
      ¬ (h.stores.region .treeOpamMd).Contains x := fun hx hx' => hroom.disjoint _ hx' hx
  have hstatus : ∀ (m₃ : Mem) {x : Addr}, (h.stores.region .treeOpamMd).Contains x ∨
      (h.stores.region .treeOpam).Contains x →
      writeLE64 m₃ edgeCall.callStatus callStatusOk x = m₃ x := by
    intro m₃ x hx
    refine writeBytes_of_ne m₃ _ fun c hc he => ?_
    rcases hx with hx | hx
    · exact (hroom.status c hc).1 (he ▸ hx)
    · exact (hroom.status c hc).2 (he ▸ hx)
  have hmiddle : (16#64 : Addr) = BitVec.ofNat 64 16 := rfl
  have hzero : ∀ st, h.stores.address st (BitVec.ofNat 64 j) =
      h.stores.address st (BitVec.ofNat 64 j) + BitVec.ofNat 64 0 :=
    fun st => (BitVec.add_zero _).symm
  have hrun := hm'.symm.trans (run_opamWriteBucketsMd hargs)
  rw [Handler.asked, hindex, hsource] at hrun
  dsimp only [Handler.asked.stored] at hrun
  constructor
  · intro o ho
    rw [hrun, hstatus _ (Or.inr (hdata i hi o ho)), writeLE64, hmiddle,
      writeBytes_outside _ _ hroom.md hj (by decide) (hapart (hdata i hi o ho)), hzero .treeOpam,
      writeBytes_element _ _ hi hj ho (by decide), hzero .treeOpamMd]
    by_cases hij : i = j
    · rw [if_pos ⟨hij, Nat.zero_le o, lt_of_lt_of_eq ho (Nat.zero_add _).symm⟩, if_pos hij]
      exact writeBytes_outside _ _ hroom.md hj (by decide) (hapart (hdata k hk o ho))
    · rw [if_neg fun hc => hij hc.1, if_neg hij]
      exact writeBytes_outside _ _ hroom.md hj (by decide) (hapart (hdata i hi o ho))
  · intro o ho
    have hi' : i < Store.treeOpamMd.treeSize := hi
    have hj' : j < Store.treeOpamMd.treeSize := hj
    have ho' : o < Store.treeOpamMd.sizeof := ho
    rw [hrun, hstatus _ (Or.inl (hmd o ho)), writeLE64, hmiddle,
      writeBytes_element _ _ hi' hj' ho' (by decide), hzero .treeOpam,
      writeBytes_outside _ _ hroom.data hj (by decide) (hroom.disjoint _ (hmd o ho)),
      hzero .treeOpamMd, writeBytes_element _ _ hi' hj' ho' (by decide)]
    by_cases hij : i = j
    · by_cases hword : 16 ≤ o ∧ o < 24
      · rw [if_pos ⟨hij, hword⟩, if_pos hij, if_pos hword]
      · rw [if_neg fun hc => hword hc.2,
          if_pos ⟨hij, Nat.zero_le o, lt_of_lt_of_eq ho' (Nat.zero_add _).symm⟩, if_pos hij,
          if_neg hword]
        rfl
    · rw [if_neg fun hc => hij hc.1, if_neg fun hc => hij hc.1, if_neg hij]

/-- **The handler does to the arrays in memory what it does to the trees.** -/
theorem opamWriteBucketsMd_trees (hroom : OpamRoom h.stores edgeCall)
    (hargs : h.g.edgeCallGetPtrFromOffset (readLE64 m edgeCall.callArgOffset)
      (readLE64 m edgeCall.callArgSize) = some callArgs)
    (r : MdRequest Store.treeOpam.treeSize)
    (hindex : readLE64 m callArgs = BitVec.ofNat 64 r.treeIndex)
    (hmd : BlockOpamMd.ofMem m (callArgs + 8#64) = r.bucMd) :
    h.stores.opamTrees
        ((h.opamWriteBucketsMd edgeCall).run ⟨⟨m, [], []⟩, []⟩).2.touched.mem =
      (h.stores.opamTrees m).opamWriteBucketsMd r := by
  have hsource : readLE64 m (callArgs + 24#64) = BitVec.ofNat 64 r.source := by
    have hword : readLE64 m (callArgs + 8#64 + 16#64) = r.bucMd.treeIndex :=
      congrArg BlockOpamMd.treeIndex hmd
    rw [BitVec.add_assoc] at hword
    rw [MdRequest.source, BitVec.ofNat_toNat, BitVec.setWidth_eq, ← hword]
    rfl
  generalize hm' : ((h.opamWriteBucketsMd edgeCall).run ⟨⟨m, [], []⟩, []⟩).2.touched.mem = m'
  have hbytes := fun i : Fin Store.treeOpam.treeSize =>
    opamWriteBucketsMd_bytes hroom hargs r.treeIndex.isLt r.source.isLt hindex hsource hm' i.isLt
  -- both arrays byte by byte: the index of a block is its bytes 16 to 23
  refine OpamTrees.ext ?_ ?_
  · funext i
    obtain ⟨_, hbyte⟩ := hbytes i
    by_cases hi : i = r.treeIndex
    · subst hi
      rw [OpamTrees.treeOpamMd_self, ← hmd]
      refine BlockOpamMd.ofMem_eq (fun o ho hout => ?_) (readLE64_eq_of_bytes fun c hc => ?_)
      · rw [hbyte o ho, if_pos rfl, if_neg (by omega)]
      · rw [BitVec.add_assoc, show 16#64 = BitVec.ofNat 64 16 from rfl, ← BitVec.ofNat_add,
          hbyte (16 + c) (by omega), if_pos rfl, if_pos (by omega)]
        congr 1
        omega
    · rw [OpamTrees.treeOpamMd_of_ne _ hi]
      refine BlockOpamMd.ofMem_congr fun o ho => ?_
      rw [hbyte o ho, if_neg fun he => hi (Fin.ext he)]
  · funext i o
    obtain ⟨hbyte, _⟩ := hbytes i
    rw [Stores.opamTrees_treeOpam, hbyte o o.isLt]
    by_cases hi : i = r.treeIndex
    · subst hi
      rw [if_pos rfl, OpamTrees.treeOpam_self, Stores.opamTrees_treeOpam]
    · rw [if_neg fun he => hi (Fin.ext he), OpamTrees.treeOpam_of_ne _ hi,
        Stores.opamTrees_treeOpam]

/-- The enclave writes a request, and memory is nowhere else changed. -/
structure WritesRequest (h : StoreHost) (edgeCall : EdgeCallPtr) (m₀ m : Mem) (callArgs : Addr)
    (r : MdRequest Store.treeOpam.treeSize) : Prop where
  shared : EqOutside [h.g.region] m₀ m
  args : h.g.edgeCallGetPtrFromOffset (readLE64 m edgeCall.callArgOffset)
    (readLE64 m edgeCall.callArgSize) = some callArgs
  index : readLE64 m callArgs = BitVec.ofNat 64 r.treeIndex
  bucMd : BlockOpamMd.ofMem m (callArgs + 8#64) = r.bucMd

/-- The calls of a batch: the enclave writes a request, the handler serves it, and so on. -/
inductive BatchCalls (h : StoreHost) (edgeCall : EdgeCallPtr) :
    Mem → List (MdRequest Store.treeOpam.treeSize) → Mem → Prop
  | nil (m : Mem) : BatchCalls h edgeCall m [] m
  | cons {m₀ m m' : Mem} {callArgs : Addr} {r : MdRequest Store.treeOpam.treeSize}
      {order : List (MdRequest Store.treeOpam.treeSize)}
      (written : WritesRequest h edgeCall m₀ m callArgs r)
      (rest : BatchCalls h edgeCall
        ((h.opamWriteBucketsMd edgeCall).run ⟨⟨m, [], []⟩, []⟩).2.touched.mem order m') :
      BatchCalls h edgeCall m₀ (r :: order) m'

/-- The arrays are apart from the shared region, so the enclave cannot change them. -/
theorem opamTrees_of_eqOutside (hroom : OpamRoom h.stores edgeCall)
    (hshared : ∀ a, h.g.region.Contains a → ¬ (h.stores.region .treeOpamMd).Contains a ∧
      ¬ (h.stores.region .treeOpam).Contains a) {m' : Mem} (hm : EqOutside [h.g.region] m m') :
    h.stores.opamTrees m' = h.stores.opamTrees m := by
  refine OpamTrees.ext ?_ ?_
  · funext i
    refine BlockOpamMd.ofMem_congr fun o ho => hm _ fun R hR hin => ?_
    rw [List.mem_singleton.mp hR] at hin
    exact (hshared _ hin).1 (contains_element hroom.md i.isLt ho)
  · funext i o
    refine hm _ fun R hR hin => ?_
    rw [List.mem_singleton.mp hR] at hin
    exact (hshared _ hin).2 (contains_element hroom.data i.isLt o.isLt)

/-- **A batch in memory**: calls one after the other do to the arrays what the requests do to
the trees. -/
theorem opamTrees_processBatch (hroom : OpamRoom h.stores edgeCall)
    (hshared : ∀ a, h.g.region.Contains a → ¬ (h.stores.region .treeOpamMd).Contains a ∧
      ¬ (h.stores.region .treeOpam).Contains a)
    {order : List (MdRequest Store.treeOpam.treeSize)} {m' : Mem}
    (hcalls : BatchCalls h edgeCall m order m') :
    h.stores.opamTrees m' = (h.stores.opamTrees m).processBatch order := by
  -- induction on the calls: each one starts with the trees that the one before it left
  induction hcalls with
  | nil m => rfl
  | cons written _ ih =>
    rw [ih, opamWriteBucketsMd_trees hroom written.args _ written.index written.bucMd,
      opamTrees_of_eqOutside hroom hshared written.shared]
    rfl

end Refines

end KeystoneSdk
