/-
The page and bucket stores of the test runner (`test-runner.cpp`), and the
eleven handlers that reach into them (`edge_wrapper.cpp`, `common.h`).

* `Store`, `allocateStores` — the five arrays, and which of them the test runner
  allocates;
* `HandlerM` — a handler, with what it reads of its request and which elements it
  accesses;
* `Guarded` — every access is inside its array and inside the argument, or there
  is an error status and no access;
* **`guarded_iff`** — which requests a handler serves without going out of range:
  those whose argument is as long as what is read, and whose subscripts exist.
-/
import KeystoneSdk.EdgeBounds
import KeystoneSdk.RunnerOptions

open ByteMemory AccessLog

namespace KeystoneSdk

/-! ### The arrays -/

/-- The arrays of pages and of buckets. -/
inductive Store
  | pArr
  | treearray
  | treeOpamMd
  | treeOpam
  | treeRoramD
  deriving DecidableEq

namespace Store

/-- The blocks of a bucket.  A `pages` counts as a bucket of one block. -/
def blocks : Store → ℕ
  | pArr => 1
  | treearray => 4
  | treeOpamMd => 1
  | treeOpam => 1
  | treeRoramD => 64

/-- The size of a block: of `pages`, `Block_oram`, `Block_opam_md`, `Block_opam` and
`Block_roram`. -/
def sizeofBlock : Store → ℕ
  | pArr => 4152
  | treearray => 4160
  | treeOpamMd => 128
  | treeOpam => 4096
  | treeRoramD => 4160

/-- The size of an element. -/
def sizeof (s : Store) : ℕ := s.blocks * s.sizeofBlock

/-- The elements asked of `malloc`: 190000 pages, `ORAM_TREE_SIZE`, twice
`OPAM_TREE_SIZE` and `RORAM_TREE_SIZE`. -/
def treeSize : Store → ℕ
  | pArr => 190000
  | treearray => 70000
  | treeOpamMd => 262144
  | treeOpam => 262144
  | treeRoramD => 4400

end Store

/-- The pointers to the arrays, `none` for a null pointer, and the variable `L`. -/
structure Stores where
  pointer : Store → Option Addr
  l : ℕ

namespace Stores

/-- Keep what `malloc` returned for an array. -/
def allocate (s : Stores) (malloc : Store → Option Addr) (st : Store) : Stores :=
  { s with pointer := Function.update s.pointer st (malloc st) }

/-- The elements an array has. -/
def length (s : Stores) (st : Store) : ℕ := if (s.pointer st).isSome then st.treeSize else 0

/-- The memory of an array. -/
def region (s : Stores) (st : Store) : Span := ⟨(s.pointer st).getD 0, s.length st * st.sizeof⟩

/-- `&array[i]`. -/
def address (s : Stores) (st : Store) (i : BitVec 64) : Addr :=
  (s.pointer st).getD 0 + i * BitVec.ofNat 64 st.sizeof

/-- `&array[i].blocks[j]`. -/
def blockAddress (s : Stores) (st : Store) (i j : BitVec 64) : Addr :=
  s.address st i + j * BitVec.ofNat 64 st.sizeofBlock

end Stores

/-- The allocations of `main` in `test-runner.cpp`, with what `malloc` returns for
each array.  Only one array, or the two of OPAM, are ever allocated. -/
def allocateStores (pageFaultHandler : BitVec 32) (malloc : Store → Option Addr) : Stores :=
  let s : Stores := ⟨fun _ => none, 0⟩
  let s := if pageFaultHandler = 0#32 then s.allocate malloc .pArr else s
  if pageFaultHandler = 2#32 then
    { (s.allocate malloc .treeOpamMd).allocate malloc .treeOpam with l := 17 }
  else if pageFaultHandler = 1#32 then { s.allocate malloc .treearray with l := 4 }
  else if pageFaultHandler = 4#32 then { s.allocate malloc .treeRoramD with l := 3 }
  else if pageFaultHandler = 5#32 then s.allocate malloc .pArr
  else s

/-! ### Handlers -/

/-- What a handler does, as far as requests and arrays are concerned. -/
inductive Access
  /-- Read `n` bytes through the argument pointer. -/
  | request (a : Addr) (n : ℕ)
  /-- Read or write `array[i]`. -/
  | bucket (st : Store) (i : BitVec 64)
  /-- Read or write `array[i].blocks[j]`. -/
  | block (st : Store) (i j : BitVec 64)
  /-- Set `call_status`. -/
  | status (v : BitVec 64)
  /-- Write a number to the trace file. -/
  | trace (v : BitVec 64)

/-- A memory, and the accesses so far. -/
structure Handled where
  touched : Touched
  accesses : List Access

abbrev HandlerM := StateM Handled

/-- Log an access. -/
def note (x : Access) : HandlerM Unit := modify fun s => { s with accesses := s.accesses ++ [x] }

/-- A computation on the memory. -/
def touch {α : Type} (x : TouchM α) : HandlerM α := fun s =>
  ((x.run s.touched).1, { s with touched := (x.run s.touched).2 })

/-- Read a word of the request. -/
def loadRequestWord (a : Addr) : HandlerM (BitVec 64) := do
  note (.request a 8)
  touch (loadWord a)

/-- Copy `n` bytes of the request to a local variable, here a memory that starts
at 0. -/
def loadRequest (a : Addr) (n : ℕ) : HandlerM Mem := do
  note (.request a n)
  touch (modify fun s => { s with reads := s.reads ++ [(a, n)] })
  let m := (← get).touched.mem
  return fun o => m (a + o)

def setCallStatus (edgeCall : EdgeCallPtr) (v : BitVec 64) : HandlerM Unit := do
  note (.status v)
  touch (storeWord edgeCall.callStatus v)

/-- What the handlers find when they run: the shared region, `args_user`, what
`malloc` gave the test runner, whether `trace_file` can be opened, and a local
variable (`frame` is its address). -/
structure StoreHost where
  g : EdgeGlobals
  argsUser : EnclaveOptions
  malloc : Store → Option Addr
  traceFile : Bool
  frame : Addr
  dataWrapper : EdgeData

namespace StoreHost

def stores (h : StoreHost) : Stores := allocateStores h.argsUser.pageFaultHandler h.malloc

/-- How every handler starts. -/
def withArgs (h : StoreHost) (edgeCall : EdgeCallPtr) (body : Addr → HandlerM Unit) :
    HandlerM Unit := do
  match ← touch (h.g.edgeCallArgsPtr edgeCall) with
  | none => setCallStatus edgeCall callStatusBadOffset
  | some callArgs => body callArgs

/-- How every reading handler ends. -/
def returnWrapped (h : StoreHost) (edgeCall : EdgeCallPtr) (ptr : Addr) (size : ℕ) :
    HandlerM Unit := do
  let setup ← touch (h.g.edgeCallSetupWrappedRet edgeCall ptr (BitVec.ofNat 64 size) h.dataWrapper)
  if setup ≠ 0 then setCallStatus edgeCall callStatusBadPtr
  else setCallStatus edgeCall callStatusOk

/-- Return `array[i]`. -/
def returnBucket (h : StoreHost) (edgeCall : EdgeCallPtr) (st : Store) (i : BitVec 64) :
    HandlerM Unit := do
  note (.bucket st i)
  h.returnWrapped edgeCall (h.stores.address st i) st.sizeof

/-- Copy an element from the request to `array[i]`. -/
def copyBucket (h : StoreHost) (st : Store) (i : BitVec 64) (src : Addr) : HandlerM Unit := do
  note (.request src st.sizeof)
  note (.bucket st i)
  touch (copyBytes (h.stores.address st i) src st.sizeof)

/-- `if (args_user.page_addr_tracing)`: the handler returns if the trace file cannot
be opened. -/
def traced (h : StoreHost) (trace rest : HandlerM Unit) : HandlerM Unit :=
  if h.argsUser.pageAddrTracing ≠ 0#8 then
    if h.traceFile then do
      trace
      rest
    else pure ()
  else rest

/-- Trace the first word of `array[i].blocks[j]`, the address of its page. -/
def traceBlock (h : StoreHost) (st : Store) (i j : BitVec 64) : HandlerM Unit := do
  note (.block st i j)
  let v ← touch (loadWord (h.stores.blockAddress st i j))
  note (.trace v)

/-- Trace the first `n` blocks of a bucket. -/
def traceBlocks (h : StoreHost) (st : Store) (i : BitVec 64) : ℕ → HandlerM Unit
  | 0 => pure ()
  | n + 1 => do
    h.traceBlocks st i n
    h.traceBlock st i (BitVec.ofNat 64 n)

/-- `get_host_content_from_utm_wrapper`. -/
def getHostContentFromUtmWrapper (h : StoreHost) (edgeCall : EdgeCallPtr) : HandlerM Unit :=
  h.withArgs edgeCall fun callArgs => do
    let sourcePageVaddr ← loadRequestWord callArgs
    note (.bucket .pArr (sourcePageVaddr >>> 12))
    touch (copyBytes h.frame (h.stores.address .pArr (sourcePageVaddr >>> 12)) Store.pArr.sizeof)
    h.returnWrapped edgeCall h.frame Store.pArr.sizeof

/-- `get_enclave_content_from_epm_wrapper`. -/
def getEnclaveContentFromEpmWrapper (h : StoreHost) (edgeCall : EdgeCallPtr) : HandlerM Unit :=
  h.withArgs edgeCall fun callArgs => do
    let p ← loadRequest callArgs Store.pArr.sizeof
    let address := readLE64 p 0#64
    note (.bucket .pArr (address >>> 12))
    touch (storeBytes (h.stores.address .pArr (address >>> 12)) Store.pArr.sizeof fun i =>
      p (BitVec.ofNat 64 i))
    -- `destination_page_to_store_victim_page`
    touch (storeWord h.frame 1#64)
    h.returnWrapped edgeCall h.frame 8

/-- The first leaf of the tree. -/
def leafStart (h : StoreHost) : BitVec 64 := BitVec.ofNat 64 (2 ^ h.stores.l - 1)

/-- `read_bucket`. -/
def readBucket (h : StoreHost) (edgeCall : EdgeCallPtr) : HandlerM Unit :=
  h.withArgs edgeCall fun callArgs => do
    let treeIndex ← loadRequestWord callArgs
    if treeIndex ≥ h.leafStart then
      -- `leafindex` is an `int`
      let leafindex := ((treeIndex - h.leafStart).setWidth 32).signExtend 64
      h.traced (note (.trace leafindex)) (h.returnBucket edgeCall .treearray treeIndex)
    else h.returnBucket edgeCall .treearray treeIndex

/-- `write_buckets`. -/
def writeBuckets (h : StoreHost) (edgeCall : EdgeCallPtr) : HandlerM Unit :=
  h.withArgs edgeCall fun callArgs => do
    let treeIndex ← loadRequestWord callArgs
    h.copyBucket .treearray treeIndex (callArgs + 8#64)
    setCallStatus edgeCall callStatusOk

/-- `opam_write_buckets`. -/
def opamWriteBuckets (h : StoreHost) (edgeCall : EdgeCallPtr) : HandlerM Unit :=
  h.withArgs edgeCall fun callArgs => do
    let treeIndex ← loadRequestWord callArgs
    h.copyBucket .treeOpamMd treeIndex (callArgs + 8#64)
    setCallStatus edgeCall callStatusOk

/-- `opam_read_bucket_md`. -/
def opamReadBucketMd (h : StoreHost) (edgeCall : EdgeCallPtr) : HandlerM Unit :=
  h.withArgs edgeCall fun callArgs => do
    let treeIndex ← loadRequestWord callArgs
    h.returnBucket edgeCall .treeOpamMd treeIndex

/-- `opam_read_bucket_d`. -/
def opamReadBucketD (h : StoreHost) (edgeCall : EdgeCallPtr) : HandlerM Unit :=
  h.withArgs edgeCall fun callArgs => do
    let treeIndex ← loadRequestWord callArgs
    h.traced (h.traceBlock .treeOpamMd treeIndex 0#64) (h.returnBucket edgeCall .treeOpam treeIndex)

/-- `opam_write_buckets_d`. -/
def opamWriteBucketsD (h : StoreHost) (edgeCall : EdgeCallPtr) : HandlerM Unit :=
  h.withArgs edgeCall fun callArgs => do
    let treeIndex ← loadRequestWord callArgs
    h.copyBucket .treeOpam treeIndex (callArgs + 8#64)
    setCallStatus edgeCall callStatusOk
    h.traced (h.traceBlock .treeOpamMd treeIndex 0#64) (pure ())

/-- `opam_write_buckets_md`.  The page at the index inside the metadata is moved to
the index of the request. -/
def opamWriteBucketsMd (h : StoreHost) (edgeCall : EdgeCallPtr) : HandlerM Unit :=
  h.withArgs edgeCall fun callArgs => do
    let treeIndex ← loadRequestWord callArgs
    let bucMd ← loadRequest (callArgs + 8#64) Store.treeOpamMd.sizeof
    note (.bucket .treeOpamMd treeIndex)
    touch (storeBytes (h.stores.address .treeOpamMd treeIndex) Store.treeOpamMd.sizeof fun i =>
      bucMd (BitVec.ofNat 64 i))
    -- `buc_md.blocks[0].tree_index`
    let source := readLE64 bucMd 16#64
    note (.bucket .treeOpam source)
    note (.bucket .treeOpam treeIndex)
    touch (copyBytes (h.stores.address .treeOpam treeIndex) (h.stores.address .treeOpam source)
      Store.treeOpam.sizeof)
    note (.block .treeOpamMd treeIndex 0#64)
    touch (storeWord (h.stores.blockAddress .treeOpamMd treeIndex 0#64 + 16#64) treeIndex)
    setCallStatus edgeCall callStatusOk
    -- the condition of an empty `if`
    note (.block .treeOpamMd treeIndex 0#64)
    let _ ← touch (loadWord (h.stores.blockAddress .treeOpamMd treeIndex 0#64))

/-- `roram_write_bucket_init`. -/
def roramWriteBucketInit (h : StoreHost) (edgeCall : EdgeCallPtr) : HandlerM Unit :=
  h.withArgs edgeCall fun callArgs => do
    let treeIndex ← loadRequestWord callArgs
    h.copyBucket .treeRoramD treeIndex (callArgs + 8#64)
    h.traced (h.traceBlocks .treeRoramD treeIndex Store.treeRoramD.blocks)
      (setCallStatus edgeCall callStatusOk)

/-- `roram_read_block`. -/
def roramReadBlock (h : StoreHost) (edgeCall : EdgeCallPtr) : HandlerM Unit :=
  h.withArgs edgeCall fun callArgs => do
    let treeIndex ← loadRequestWord callArgs
    let offset ← loadRequestWord (callArgs + 8#64)
    h.traced (h.traceBlock .treeRoramD treeIndex offset) do
      note (.block .treeRoramD treeIndex offset)
      h.returnWrapped edgeCall (h.stores.blockAddress .treeRoramD treeIndex offset)
        Store.treeRoramD.sizeofBlock

end StoreHost

/-! ### Going out of range -/

/-- A subscript beyond the array is out of range, also where its product with the
size of an element wraps around to the array again. -/
def Access.InRange (stores : Stores) (args : Span) : Access → Prop
  | request a n => args.Covers a n
  | bucket st i =>
    i.toNat < stores.length st ∧ (stores.region st).Covers (stores.address st i) st.sizeof
  | block st i j =>
    i.toNat < stores.length st ∧ j.toNat < st.blocks ∧
      (stores.region st).Covers (stores.blockAddress st i j) st.sizeofBlock
  | status _ => True
  | trace _ => True

/-- The access reaches into one of the arrays. -/
def Access.TouchesStore : Access → Prop
  | bucket _ _ => True
  | block _ _ _ => True
  | _ => False

/-- An error status is set and no array is touched, or every access is in range. -/
def Guarded (stores : Stores) (args : Span) (accesses : List Access) : Prop :=
  ((∃ v ≠ callStatusOk, .status v ∈ accesses) ∧ ∀ x ∈ accesses, ¬ x.TouchesStore) ∨
    ∀ x ∈ accesses, x.InRange stores args

/-- The handlers. -/
inductive Handler
  | getEnclaveContentFromEpmWrapper
  | getHostContentFromUtmWrapper
  | readBucket
  | writeBuckets
  | opamWriteBuckets
  | opamReadBucketMd
  | opamReadBucketD
  | opamWriteBucketsD
  | opamWriteBucketsMd
  | roramWriteBucketInit
  | roramReadBlock

namespace Handler

def call (h : StoreHost) (edgeCall : EdgeCallPtr) : Handler → HandlerM Unit
  | getEnclaveContentFromEpmWrapper => h.getEnclaveContentFromEpmWrapper edgeCall
  | getHostContentFromUtmWrapper => h.getHostContentFromUtmWrapper edgeCall
  | readBucket => h.readBucket edgeCall
  | writeBuckets => h.writeBuckets edgeCall
  | opamWriteBuckets => h.opamWriteBuckets edgeCall
  | opamReadBucketMd => h.opamReadBucketMd edgeCall
  | opamReadBucketD => h.opamReadBucketD edgeCall
  | opamWriteBucketsD => h.opamWriteBucketsD edgeCall
  | opamWriteBucketsMd => h.opamWriteBucketsMd edgeCall
  | roramWriteBucketInit => h.roramWriteBucketInit edgeCall
  | roramReadBlock => h.roramReadBlock edgeCall

/-- The accesses of a call with memory `m`. -/
def accesses (h : StoreHost) (edgeCall : EdgeCallPtr) (m : Mem) (x : Handler) : List Access :=
  ((x.call h edgeCall).run ⟨⟨m, [], []⟩, []⟩).2.accesses

/-- The trace is on and its file can be opened. -/
def Traces (h : StoreHost) : Prop := h.argsUser.pageAddrTracing ≠ 0#8 ∧ h.traceFile = true

/-- The trace is on and its file cannot be opened. -/
def TraceFails (h : StoreHost) : Prop := h.argsUser.pageAddrTracing ≠ 0#8 ∧ h.traceFile = false

/-- The argument of `size` bytes at `callArgs` is as long as what the handler reads
of it, and the subscripts in it exist.  Nothing is accessed when the trace file
cannot be opened, and the trace reads metadata of its own. -/
def Fits (h : StoreHost) (m : Mem) (callArgs : Addr) (size : ℕ) : Handler → Prop
  | getEnclaveContentFromEpmWrapper =>
    Store.pArr.sizeof ≤ size ∧ (readLE64 m callArgs >>> 12).toNat < h.stores.length .pArr
  | getHostContentFromUtmWrapper =>
    8 ≤ size ∧ (readLE64 m callArgs >>> 12).toNat < h.stores.length .pArr
  | readBucket =>
    8 ≤ size ∧ (readLE64 m callArgs ≥ h.leafStart ∧ TraceFails h ∨
      (readLE64 m callArgs).toNat < h.stores.length .treearray)
  | writeBuckets =>
    8 + Store.treearray.sizeof ≤ size ∧ (readLE64 m callArgs).toNat < h.stores.length .treearray
  | opamWriteBuckets =>
    8 + Store.treeOpamMd.sizeof ≤ size ∧ (readLE64 m callArgs).toNat < h.stores.length .treeOpamMd
  | opamReadBucketMd =>
    8 ≤ size ∧ (readLE64 m callArgs).toNat < h.stores.length .treeOpamMd
  | opamReadBucketD =>
    8 ≤ size ∧ (TraceFails h ∨ (readLE64 m callArgs).toNat < h.stores.length .treeOpam ∧
      (Traces h → (readLE64 m callArgs).toNat < h.stores.length .treeOpamMd))
  | opamWriteBucketsD =>
    8 + Store.treeOpam.sizeof ≤ size ∧ (readLE64 m callArgs).toNat < h.stores.length .treeOpam ∧
      (Traces h → (readLE64 m callArgs).toNat < h.stores.length .treeOpamMd)
  | opamWriteBucketsMd =>
    8 + Store.treeOpamMd.sizeof ≤ size ∧ (readLE64 m callArgs).toNat < h.stores.length .treeOpamMd ∧
      (readLE64 m callArgs).toNat < h.stores.length .treeOpam ∧
      (readLE64 m (callArgs + 24#64)).toNat < h.stores.length .treeOpam
  | roramWriteBucketInit =>
    8 + Store.treeRoramD.sizeof ≤ size ∧ (readLE64 m callArgs).toNat < h.stores.length .treeRoramD
  | roramReadBlock =>
    16 ≤ size ∧ (TraceFails h ∨ (readLE64 m callArgs).toNat < h.stores.length .treeRoramD ∧
      (readLE64 m (callArgs + 8#64)).toNat < Store.treeRoramD.blocks)

end Handler

/-! ### The accesses of a run -/

theorem Handled.run_bind {α β : Type} (x : HandlerM α) (f : α → HandlerM β) (s : Handled) :
    (x >>= f).run s = (f (x.run s).1).run (x.run s).2 := rfl

theorem Handled.run_pure {α : Type} (x : α) (s : Handled) : (pure x : HandlerM α).run s = (x, s) :=
  rfl

theorem run_note (x : Access) (s : Handled) :
    (note x).run s = ((), { s with accesses := s.accesses ++ [x] }) := rfl

theorem run_touch {α : Type} (x : TouchM α) (s : Handled) :
    (touch x).run s = ((x.run s.touched).1, { s with touched := (x.run s.touched).2 }) := rfl

theorem run_loadRequestWord (a : Addr) (s : Handled) :
    (loadRequestWord a).run s = (readLE64 s.touched.mem a,
      ⟨{ s.touched with reads := s.touched.reads ++ [(a, 8)] },
        s.accesses ++ [.request a 8]⟩) := rfl

theorem run_loadRequest (a : Addr) (n : ℕ) (s : Handled) :
    (loadRequest a n).run s = (fun o => s.touched.mem (a + o),
      ⟨{ s.touched with reads := s.touched.reads ++ [(a, n)] },
        s.accesses ++ [.request a n]⟩) := rfl

/-- A word of a local copy. -/
theorem readLE64_local (m : Mem) (a o : Addr) :
    readLE64 (fun x => m (a + x)) o = readLE64 m (a + o) :=
  readLE64_congr fun i _ => by rw [BitVec.add_assoc]

/-- All accesses, up to the end of a run, satisfy `P`. -/
def AllAccesses {α : Type} (P : Access → Prop) (x : HandlerM α) (s : Handled) : Prop :=
  ∀ y ∈ (x.run s).2.accesses, P y

section

variable {P : Access → Prop} {s : Handled}

theorem all_bind {α β : Type} (x : HandlerM α) (f : α → HandlerM β) :
    AllAccesses P (x >>= f) s ↔ AllAccesses P (f (x.run s).1) (x.run s).2 := Iff.rfl

theorem all_note (x : Access) :
    AllAccesses P (note x) s ↔ (∀ y ∈ s.accesses, P y) ∧ P x := by
  rw [AllAccesses, run_note, List.forall_mem_append, List.forall_mem_singleton]

theorem all_touch {α : Type} (x : TouchM α) :
    AllAccesses P (touch x) s ↔ ∀ y ∈ s.accesses, P y := Iff.rfl

theorem all_loadRequestWord (a : Addr) :
    AllAccesses P (loadRequestWord a) s ↔ (∀ y ∈ s.accesses, P y) ∧ P (.request a 8) :=
  all_note _

theorem all_setCallStatus (hstatus : ∀ v, P (.status v)) (edgeCall : EdgeCallPtr) (v : BitVec 64) :
    AllAccesses P (setCallStatus edgeCall v) s ↔ ∀ y ∈ s.accesses, P y := by
  have h : AllAccesses P (setCallStatus edgeCall v) s ↔
      (∀ y ∈ s.accesses, P y) ∧ P (.status v) := all_note _
  rw [h, and_iff_left (hstatus v)]

theorem all_returnWrapped (hstatus : ∀ v, P (.status v)) (h : StoreHost) (edgeCall : EdgeCallPtr)
    (ptr : Addr) (size : ℕ) :
    AllAccesses P (h.returnWrapped edgeCall ptr size) s ↔ ∀ y ∈ s.accesses, P y := by
  rw [StoreHost.returnWrapped, all_bind, run_touch]
  split
  · exact all_setCallStatus hstatus ..
  · exact all_setCallStatus hstatus ..

theorem all_returnBucket (hstatus : ∀ v, P (.status v)) (h : StoreHost) (edgeCall : EdgeCallPtr)
    (st : Store) (i : BitVec 64) :
    AllAccesses P (h.returnBucket edgeCall st i) s ↔
      (∀ y ∈ s.accesses, P y) ∧ P (.bucket st i) := by
  rw [StoreHost.returnBucket, all_bind, all_returnWrapped hstatus]
  exact all_note _

theorem all_copyBucket (h : StoreHost) (st : Store) (i : BitVec 64) (src : Addr) :
    AllAccesses P (h.copyBucket st i src) s ↔
      (∀ y ∈ s.accesses, P y) ∧ P (.request src st.sizeof) ∧ P (.bucket st i) := by
  have hnotes : AllAccesses P (h.copyBucket st i src) s ↔
      AllAccesses P (note (.request src st.sizeof)) s ∧ P (.bucket st i) := all_note _
  rw [hnotes, all_note, and_assoc]

/-- A handler traces, stops because it cannot, or goes on without a trace. -/
theorem all_traced (h : StoreHost) {trace rest : HandlerM Unit} {T R : Prop}
    (htrace : AllAccesses P trace s ↔ (∀ y ∈ s.accesses, P y) ∧ T)
    (hrest : ∀ s, AllAccesses P rest s ↔ (∀ y ∈ s.accesses, P y) ∧ R) :
    AllAccesses P (h.traced trace rest) s ↔
      (∀ y ∈ s.accesses, P y) ∧ (Handler.TraceFails h ∨ R ∧ (Handler.Traces h → T)) := by
  have htraced : AllAccesses P (do trace; rest) s ↔ AllAccesses P trace s ∧ R := by
    rw [all_bind, hrest]
    rfl
  have hstop : AllAccesses P (pure () : HandlerM Unit) s ↔ ∀ y ∈ s.accesses, P y := Iff.rfl
  unfold StoreHost.traced Handler.TraceFails Handler.Traces
  by_cases htracing : h.argsUser.pageAddrTracing = 0#8
  · simp [htracing, hrest]
  · rcases hfile : h.traceFile with _ | _
    · simp [htracing, hstop]
    · simp [htracing, htraced, htrace, and_assoc, and_comm (a := R)]

theorem all_traceBlock (htrace : ∀ v, P (.trace v)) (h : StoreHost) (st : Store)
    (i j : BitVec 64) :
    AllAccesses P (h.traceBlock st i j) s ↔ (∀ y ∈ s.accesses, P y) ∧ P (.block st i j) := by
  rw [StoreHost.traceBlock, all_bind, all_bind, all_note, and_iff_left (htrace _)]
  exact all_note _

theorem all_traceBlocks (htrace : ∀ v, P (.trace v)) (h : StoreHost) (st : Store)
    (i : BitVec 64) (n : ℕ) :
    AllAccesses P (h.traceBlocks st i n) s ↔
      (∀ y ∈ s.accesses, P y) ∧ ∀ j < n, P (.block st i (BitVec.ofNat 64 j)) := by
  induction n with
  | zero =>
    have h : AllAccesses P (h.traceBlocks st i 0) s ↔ ∀ y ∈ s.accesses, P y := Iff.rfl
    simp [h]
  | succ n ih =>
    have hrun := ih
    unfold AllAccesses at hrun
    rw [StoreHost.traceBlocks, all_bind, all_traceBlock htrace, hrun, and_assoc]
    refine and_congr_right fun _ => ?_
    rw [Nat.forall_lt_succ_right]

end

namespace Handler

/-- What a handler reaches with a checked argument pointer: `P` holds of every part
of the request it reads and of every element it accesses. -/
def Reaches (h : StoreHost) (m : Mem) (callArgs : Addr) (P : Access → Prop) : Handler → Prop
  | getEnclaveContentFromEpmWrapper =>
    P (.request callArgs Store.pArr.sizeof) ∧ P (.bucket .pArr (readLE64 m callArgs >>> 12))
  | getHostContentFromUtmWrapper =>
    P (.request callArgs 8) ∧ P (.bucket .pArr (readLE64 m callArgs >>> 12))
  | readBucket =>
    P (.request callArgs 8) ∧ (readLE64 m callArgs ≥ h.leafStart ∧ TraceFails h ∨
      P (.bucket .treearray (readLE64 m callArgs)))
  | writeBuckets => writes .treearray
  | opamWriteBuckets => writes .treeOpamMd
  | opamReadBucketMd =>
    P (.request callArgs 8) ∧ P (.bucket .treeOpamMd (readLE64 m callArgs))
  | opamReadBucketD =>
    P (.request callArgs 8) ∧ (TraceFails h ∨ P (.bucket .treeOpam (readLE64 m callArgs)) ∧
      (Traces h → P (.block .treeOpamMd (readLE64 m callArgs) 0#64)))
  | opamWriteBucketsD =>
    writes .treeOpam ∧ (Traces h → P (.block .treeOpamMd (readLE64 m callArgs) 0#64))
  | opamWriteBucketsMd =>
    writes .treeOpamMd ∧ P (.bucket .treeOpam (readLE64 m (callArgs + 24#64))) ∧
      P (.bucket .treeOpam (readLE64 m callArgs)) ∧
      P (.block .treeOpamMd (readLE64 m callArgs) 0#64)
  | roramWriteBucketInit =>
    writes .treeRoramD ∧ (Traces h → ∀ j < Store.treeRoramD.blocks,
      P (.block .treeRoramD (readLE64 m callArgs) (BitVec.ofNat 64 j)))
  | roramReadBlock =>
    P (.request callArgs 8) ∧ P (.request (callArgs + 8#64) 8) ∧ (TraceFails h ∨
      P (.block .treeRoramD (readLE64 m callArgs) (readLE64 m (callArgs + 8#64))))
where
  /-- An index, and an element to be copied to it. -/
  writes (st : Store) : Prop :=
    P (.request callArgs 8) ∧ P (.request (callArgs + 8#64) st.sizeof) ∧
      P (.bucket st (readLE64 m callArgs))

section

variable {P : Access → Prop} {h : StoreHost} {edgeCall : EdgeCallPtr} {m : Mem} {callArgs : Addr}

/-- A handler first reads where its arguments are, and how long they are. -/
theorem run_argsPtr : (touch (h.g.edgeCallArgsPtr edgeCall)).run ⟨⟨m, [], []⟩, []⟩ =
    (h.g.edgeCallGetPtrFromOffset (readLE64 m edgeCall.callArgOffset)
        (readLE64 m edgeCall.callArgSize),
      ⟨⟨m, [(edgeCall.callArgOffset, 8), (edgeCall.callArgSize, 8)], []⟩, []⟩) := by
  rw [run_touch, EdgeGlobals.run_edgeCallArgsPtr]
  rfl

/-- A checked argument pointer is handed to the body of the handler, with nothing
accessed before. -/
theorem all_withArgs (hargs : h.g.edgeCallGetPtrFromOffset (readLE64 m edgeCall.callArgOffset)
    (readLE64 m edgeCall.callArgSize) = some callArgs) (body : Addr → HandlerM Unit) :
    AllAccesses P (h.withArgs edgeCall body) ⟨⟨m, [], []⟩, []⟩ ↔
      AllAccesses P (body callArgs)
        ⟨⟨m, [(edgeCall.callArgOffset, 8), (edgeCall.callArgSize, 8)], []⟩, []⟩ := by
  rw [StoreHost.withArgs, all_bind, run_argsPtr, hargs]

/-- The state after the index is read. -/
def indexed (edgeCall : EdgeCallPtr) (m : Mem) (callArgs : Addr) : Handled :=
  ⟨⟨m, [(edgeCall.callArgOffset, 8), (edgeCall.callArgSize, 8), (callArgs, 8)], []⟩,
    [.request callArgs 8]⟩

/-- Most handlers read an index first. -/
theorem all_withIndex (hargs : h.g.edgeCallGetPtrFromOffset (readLE64 m edgeCall.callArgOffset)
    (readLE64 m edgeCall.callArgSize) = some callArgs) (body : Addr → BitVec 64 → HandlerM Unit) :
    AllAccesses P (h.withArgs edgeCall fun a => loadRequestWord a >>= body a) ⟨⟨m, [], []⟩, []⟩ ↔
      AllAccesses P (body callArgs (readLE64 m callArgs)) (indexed edgeCall m callArgs) := by
  rw [all_withArgs hargs, all_bind, run_loadRequestWord]
  rfl

theorem all_indexed : (∀ y ∈ (indexed edgeCall m callArgs).accesses, P y) ↔
    P (.request callArgs 8) := List.forall_mem_singleton

/-- The handlers that copy an element to its index, and what is left to do. -/
theorem all_writes (st : Store) (rest : HandlerM Unit)
    (hrest : ∀ s, AllAccesses P rest s ↔ ∀ y ∈ s.accesses, P y) :
    AllAccesses P (do h.copyBucket st (readLE64 m callArgs) (callArgs + 8#64); rest)
      (indexed edgeCall m callArgs) ↔ Reaches.writes m callArgs P st := by
  rw [all_bind, hrest, Reaches.writes]
  exact (all_copyBucket ..).trans (and_congr_left' all_indexed)

theorem traces_iff {T : Prop} : TraceFails h ∨ True ∧ (Traces h → T) ↔ (Traces h → T) := by
  rw [true_and, or_iff_right_iff_imp]
  intro hfails htraces
  exact absurd (hfails.2.symm.trans htraces.2) Bool.false_ne_true

/-- A copied element, whose first `n` blocks are traced. -/
theorem all_writes_traced (hstatus : ∀ v, P (.status v)) (htrace : ∀ v, P (.trace v)) (st : Store)
    (n : ℕ) :
    AllAccesses P (do
        h.copyBucket st (readLE64 m callArgs) (callArgs + 8#64)
        h.traced (h.traceBlocks st (readLE64 m callArgs) n) (setCallStatus edgeCall callStatusOk))
      (indexed edgeCall m callArgs) ↔
      Reaches.writes m callArgs P st ∧
        (Traces h → ∀ j < n, P (.block st (readLE64 m callArgs) (BitVec.ofNat 64 j))) := by
  rw [all_bind, all_traced h (all_traceBlocks htrace ..) fun _ =>
    (all_setCallStatus hstatus ..).trans (and_iff_left trivial).symm, traces_iff]
  exact and_congr_left' (all_writes st (pure ()) fun _ => Iff.rfl)

/-- What the run of a handler accesses is what it reaches. -/
theorem all_call (hargs : h.g.edgeCallGetPtrFromOffset (readLE64 m edgeCall.callArgOffset)
    (readLE64 m edgeCall.callArgSize) = some callArgs) (hstatus : ∀ v, P (.status v))
    (htrace : ∀ v, P (.trace v)) (x : Handler) :
    AllAccesses P (x.call h edgeCall) ⟨⟨m, [], []⟩, []⟩ ↔ x.Reaches h m callArgs P := by
  -- the accesses of a sequence are those of its parts, and the arguments of each come from the
  -- request in the memory the call started with
  cases x with
  | getEnclaveContentFromEpmWrapper =>
    rw [call, StoreHost.getEnclaveContentFromEpmWrapper, all_withArgs hargs, Reaches, all_bind,
      run_loadRequest]
    dsimp only
    rw [readLE64_local, BitVec.add_zero, all_bind, all_bind, all_bind, all_returnWrapped hstatus]
    simp [run_note, run_touch]
  | getHostContentFromUtmWrapper =>
    rw [call, StoreHost.getHostContentFromUtmWrapper, all_withIndex hargs, Reaches, all_bind,
      all_bind, all_returnWrapped hstatus]
    exact (all_note _).trans (and_congr_left' all_indexed)
  | readBucket =>
    rw [call, StoreHost.readBucket, all_withIndex hargs, Reaches]
    by_cases hleaf : readLE64 m callArgs ≥ h.leafStart
    · rw [if_pos hleaf, all_traced h (all_note _) fun _ => all_returnBucket hstatus ..,
        all_indexed]
      simp [hleaf, htrace]
    · rw [if_neg hleaf, all_returnBucket hstatus, all_indexed]
      simp [hleaf]
  | writeBuckets =>
    rw [call, StoreHost.writeBuckets, all_withIndex hargs, Reaches]
    exact all_writes _ _ fun _ => all_setCallStatus hstatus ..
  | opamWriteBuckets =>
    rw [call, StoreHost.opamWriteBuckets, all_withIndex hargs, Reaches]
    exact all_writes _ _ fun _ => all_setCallStatus hstatus ..
  | opamReadBucketMd =>
    rw [call, StoreHost.opamReadBucketMd, all_withIndex hargs, Reaches, all_returnBucket hstatus,
      all_indexed]
  | opamReadBucketD =>
    rw [call, StoreHost.opamReadBucketD, all_withIndex hargs, Reaches,
      all_traced h (all_traceBlock htrace ..) fun _ => all_returnBucket hstatus .., all_indexed]
  | opamWriteBucketsD =>
    rw [call, StoreHost.opamWriteBucketsD, all_withIndex hargs, Reaches, all_bind, all_bind,
      all_traced h (all_traceBlock htrace ..) fun _ => (and_iff_left trivial).symm, traces_iff]
    refine and_congr_left' (Iff.trans (all_setCallStatus hstatus ..) ?_)
    exact all_writes .treeOpam (pure ()) fun _ => Iff.rfl
  | opamWriteBucketsMd =>
    rw [call, StoreHost.opamWriteBucketsMd, all_withIndex hargs, Reaches, Reaches.writes, all_bind,
      run_loadRequest]
    dsimp only
    rw [readLE64_local, BitVec.add_assoc, show (8#64 + 16#64 : BitVec 64) = 24#64 from rfl]
    simp only [AllAccesses, Handled.run_bind, Handled.run_pure, run_note, run_touch, setCallStatus,
      indexed, List.forall_mem_append, List.forall_mem_singleton, and_iff_left (hstatus _)]
    tauto
  | roramWriteBucketInit =>
    rw [call, StoreHost.roramWriteBucketInit, all_withIndex hargs, Reaches]
    exact all_writes_traced hstatus htrace ..
  | roramReadBlock =>
    have hoffset : ((loadRequestWord (callArgs + 8#64)).run (indexed edgeCall m callArgs)).1 =
        readLE64 m (callArgs + 8#64) := rfl
    have hreads : AllAccesses P (loadRequestWord (callArgs + 8#64)) (indexed edgeCall m callArgs) ↔
        P (.request callArgs 8) ∧ P (.request (callArgs + 8#64) 8) :=
      (all_loadRequestWord _).trans (and_congr_left' all_indexed)
    rw [call, StoreHost.roramReadBlock, all_withIndex hargs, Reaches, all_bind, hoffset]
    have hbody : ∀ s, AllAccesses P (do
        note (.block .treeRoramD (readLE64 m callArgs) (readLE64 m (callArgs + 8#64)))
        h.returnWrapped edgeCall (h.stores.blockAddress .treeRoramD (readLE64 m callArgs)
          (readLE64 m (callArgs + 8#64))) Store.treeRoramD.sizeofBlock) s ↔
          (∀ y ∈ s.accesses, P y) ∧
            P (.block .treeRoramD (readLE64 m callArgs) (readLE64 m (callArgs + 8#64))) := by
      intro s
      rw [all_bind, all_returnWrapped hstatus]
      exact all_note _
    refine (all_traced h (all_traceBlock htrace ..) hbody).trans ?_
    rw [← and_assoc]
    refine and_congr hreads ?_
    exact or_congr_right (and_iff_left_of_imp fun hblock _ => hblock)

/-! ### Which requests are served in range -/

theorem traced_of_fails (hfails : TraceFails h) (trace rest : HandlerM Unit) :
    h.traced trace rest = pure () := by
  rw [StoreHost.traced, if_pos hfails.1, if_neg (by rw [hfails.2]; exact Bool.false_ne_true)]

/-- A handler that touches no array stops before it sets a status. -/
theorem no_status (hargs : h.g.edgeCallGetPtrFromOffset (readLE64 m edgeCall.callArgOffset)
    (readLE64 m edgeCall.callArgSize) = some callArgs) (x : Handler)
    (huntouched : ∀ y ∈ x.accesses h edgeCall m, ¬ y.TouchesStore) (v : BitVec 64) :
    .status v ∉ x.accesses h edgeCall m := by
  have hreaches : x.Reaches h m callArgs (¬ ·.TouchesStore) :=
    (all_call hargs (fun _ => not_false) (fun _ => not_false) x).mp huntouched
  suffices hall : AllAccesses (· ≠ .status v) (x.call h edgeCall) ⟨⟨m, [], []⟩, []⟩ from
    fun hmem => hall _ hmem rfl
  -- only a trace that fails comes before every array
  cases x with
  | readBucket =>
    obtain ⟨-, ⟨hleaf, hfails⟩ | htouches⟩ := hreaches
    · rw [call, StoreHost.readBucket, all_withIndex hargs, if_pos hleaf, traced_of_fails hfails]
      exact all_indexed.mpr nofun
    · exact absurd trivial htouches
  | opamReadBucketD =>
    obtain ⟨-, hfails | ⟨htouches, -⟩⟩ := hreaches
    · rw [call, StoreHost.opamReadBucketD, all_withIndex hargs, traced_of_fails hfails]
      exact all_indexed.mpr nofun
    · exact absurd trivial htouches
  | roramReadBlock =>
    obtain ⟨-, -, hfails | htouches⟩ := hreaches
    · rw [call, StoreHost.roramReadBlock, all_withIndex hargs, all_bind, traced_of_fails hfails]
      exact (all_loadRequestWord _).mpr ⟨all_indexed.mpr nofun, nofun⟩
    · exact absurd trivial htouches
  | getEnclaveContentFromEpmWrapper => exact absurd trivial hreaches.2
  | getHostContentFromUtmWrapper => exact absurd trivial hreaches.2
  | writeBuckets => exact absurd trivial hreaches.2.2
  | opamWriteBuckets => exact absurd trivial hreaches.2.2
  | opamReadBucketMd => exact absurd trivial hreaches.2
  | opamWriteBucketsD => exact absurd trivial hreaches.1.2.2
  | opamWriteBucketsMd => exact absurd trivial hreaches.1.2.2
  | roramWriteBucketInit => exact absurd trivial hreaches.1.2.2

end

section

variable {stores : Stores} {callArgs : Addr} {size : BitVec 64}

/-- The part of the request from offset `k` on is inside the argument. -/
theorem request_inRange_iff {k n : ℕ} (hn : n ≠ 0) (hk : k < 2 ^ 64) :
    (Access.request (callArgs + BitVec.ofNat 64 k) n).InRange stores ⟨callArgs, size.toNat⟩ ↔
      k + n ≤ size.toNat := by
  have hoffset : (⟨callArgs, size.toNat⟩ : Span).offset (callArgs + BitVec.ofNat 64 k) = k :=
    Span.offset_start_add _ hk
  rw [Access.InRange, Span.covers_iff size.isLt, hoffset, or_iff_right hn]

theorem treeSize_sizeof_lt (st : Store) : st.treeSize * st.sizeof < 2 ^ 64 := by
  cases st <;> decide

theorem length_le_treeSize (st : Store) : stores.length st ≤ st.treeSize := by
  unfold Stores.length
  split
  · exact le_rfl
  · exact Nat.zero_le _

/-- A block of an element that exists lies in the array. -/
theorem covers_blockAddress {st : Store} {i j : BitVec 64} (hi : i.toNat < stores.length st)
    {n : ℕ} (hj : j.toNat * st.sizeofBlock + n ≤ st.sizeof) :
    (stores.region st).Covers (stores.blockAddress st i j) n := by
  have hlength : stores.length st ≤ st.treeSize := length_le_treeSize st
  have hlt := treeSize_sizeof_lt st
  have hend : (i.toNat + 1) * st.sizeof ≤ stores.length st * st.sizeof :=
    Nat.mul_le_mul_right _ hi
  have hsize : stores.length st * st.sizeof ≤ st.treeSize * st.sizeof :=
    Nat.mul_le_mul_right _ hlength
  rw [Nat.add_mul, Nat.one_mul] at hend
  have haddress : stores.blockAddress st i j = (stores.region st).start +
      BitVec.ofNat 64 (i.toNat * st.sizeof + j.toNat * st.sizeofBlock) := by
    rw [Stores.blockAddress, Stores.address, Stores.region, BitVec.add_assoc, BitVec.ofNat_add,
      BitVec.ofNat_mul, BitVec.ofNat_mul, BitVec.ofNat_toNat, BitVec.ofNat_toNat,
      BitVec.setWidth_eq, BitVec.setWidth_eq]
  have hlen : (stores.region st).len = stores.length st * st.sizeof := rfl
  rw [Span.covers_iff (by omega), haddress, Span.offset_start_add _ (by omega), hlen]
  omega

theorem bucket_inRange_iff (args : Span) (st : Store) (i : BitVec 64) :
    (Access.bucket st i).InRange stores args ↔ i.toNat < stores.length st := by
  refine and_iff_left_of_imp fun hi => ?_
  have hcovers := covers_blockAddress (j := 0#64) hi (n := st.sizeof) (by simp)
  rwa [Stores.blockAddress, BitVec.zero_mul, BitVec.add_zero] at hcovers

theorem block_inRange_iff (args : Span) (st : Store) (i j : BitVec 64) :
    (Access.block st i j).InRange stores args ↔
      i.toNat < stores.length st ∧ j.toNat < st.blocks := by
  refine and_congr_right fun hi => and_iff_left_of_imp fun hj => covers_blockAddress hi ?_
  have hsize := Nat.mul_le_mul_right st.sizeofBlock (Nat.succ_le_of_lt hj)
  rwa [Nat.succ_mul] at hsize

end

/-- What a handler reaches is in range iff the argument is long enough and the
subscripts in it exist. -/
theorem reaches_inRange_iff (h : StoreHost) (m : Mem) (callArgs : Addr) (size : BitVec 64)
    (x : Handler) :
    x.Reaches h m callArgs (Access.InRange h.stores ⟨callArgs, size.toNat⟩) ↔
      x.Fits h m callArgs size.toNat := by
  -- a request of `n` bytes at an offset, an element and a block: what each asks of the argument
  have hindex {n : ℕ} (hn : n ≠ 0) :
      (Access.request callArgs n).InRange h.stores ⟨callArgs, size.toNat⟩ ↔ n ≤ size.toNat := by
    have hrequest : (Access.request (callArgs + BitVec.ofNat 64 0) n).InRange h.stores
        ⟨callArgs, size.toNat⟩ ↔ 0 + n ≤ size.toNat := request_inRange_iff hn (by decide)
    rwa [BitVec.add_zero, Nat.zero_add] at hrequest
  have hsecond {n : ℕ} (hn : n ≠ 0) :
      (Access.request (callArgs + 8#64) n).InRange h.stores ⟨callArgs, size.toNat⟩ ↔
        8 + n ≤ size.toNat := request_inRange_iff hn (by decide)
  have hword := hindex (n := 8) (by decide)
  have hwrites (st : Store) (hst : st.sizeof ≠ 0) :
      Reaches.writes m callArgs (Access.InRange h.stores ⟨callArgs, size.toNat⟩) st ↔
        8 + st.sizeof ≤ size.toNat ∧ (readLE64 m callArgs).toNat < h.stores.length st := by
    rw [Reaches.writes, hword, hsecond hst, bucket_inRange_iff]
    omega
  cases x with
  | getEnclaveContentFromEpmWrapper =>
    rw [Reaches, Fits, hindex (by decide), bucket_inRange_iff]
  | getHostContentFromUtmWrapper =>
    rw [Reaches, Fits, hword, bucket_inRange_iff]
  | readBucket =>
    rw [Reaches, Fits, hword, bucket_inRange_iff]
  | writeBuckets => exact hwrites _ (by decide)
  | opamWriteBuckets => exact hwrites _ (by decide)
  | opamReadBucketMd =>
    rw [Reaches, Fits, hword, bucket_inRange_iff]
  | opamReadBucketD =>
    rw [Reaches, Fits, hword, bucket_inRange_iff, block_inRange_iff,
      and_iff_left (show (0#64).toNat < Store.treeOpamMd.blocks by decide)]
  | opamWriteBucketsD =>
    rw [Reaches, Fits, hwrites _ (by decide), block_inRange_iff,
      and_iff_left (show (0#64).toNat < Store.treeOpamMd.blocks by decide), and_assoc]
  | opamWriteBucketsMd =>
    rw [Reaches, Fits, hwrites _ (by decide), bucket_inRange_iff, bucket_inRange_iff,
      block_inRange_iff, and_iff_left (show (0#64).toNat < Store.treeOpamMd.blocks by decide)]
    tauto
  | roramWriteBucketInit =>
    rw [Reaches, Fits, hwrites _ (by decide)]
    refine and_iff_left_of_imp fun hfits _ j hj => ?_
    have hblocks : Store.treeRoramD.blocks = 64 := rfl
    rw [block_inRange_iff, BitVec.toNat_ofNat, Nat.mod_eq_of_lt (by omega)]
    exact ⟨hfits.2, hj⟩
  | roramReadBlock =>
    rw [Reaches, Fits, hword, hsecond (by decide), block_inRange_iff, ← and_assoc]
    exact and_congr_left' (by omega)

/-- **Which requests are served in range**, by each handler, for every memory with a
checked argument pointer: the argument must be as long as what the handler reads of
it, and the subscripts in it must exist.  Nothing checks either. -/
theorem guarded_iff (h : StoreHost) (edgeCall : EdgeCallPtr) (m : Mem) (callArgs : Addr)
    (hargs : h.g.edgeCallGetPtrFromOffset (readLE64 m edgeCall.callArgOffset)
      (readLE64 m edgeCall.callArgSize) = some callArgs) (x : Handler) :
    Guarded h.stores ⟨callArgs, (readLE64 m edgeCall.callArgSize).toNat⟩
        (x.accesses h edgeCall m) ↔
      x.Fits h m callArgs (readLE64 m edgeCall.callArgSize).toNat := by
  have hinRange : (∀ y ∈ x.accesses h edgeCall m,
      y.InRange h.stores ⟨callArgs, (readLE64 m edgeCall.callArgSize).toNat⟩) ↔
        x.Fits h m callArgs (readLE64 m edgeCall.callArgSize).toNat :=
    (all_call hargs (fun _ => trivial) (fun _ => trivial) x).trans (reaches_inRange_iff ..)
  constructor
  · rintro (⟨⟨v, -, hstatus⟩, huntouched⟩ | hall)
    · exact absurd hstatus (no_status hargs x huntouched v)
    · exact hinRange.mp hall
  · exact fun hfits => .inr (hinRange.mpr hfits)

/-- Path ORAM, with eight pages of shared memory. -/
def pathOram : StoreHost :=
  ⟨⟨0x1000#64, 0x8000#64⟩, { EnclaveOptions.default with pageFaultHandler := 1 },
    fun _ => some 0x10000000#64, true, 0x8000000#64, ⟨0#64, 0#64, 0#64⟩⟩

/-- A call at `0x1000` with one word of argument at offset `0x30`. -/
def indexArgs (index : BitVec 64) : Mem :=
  writeLE64 (writeLE64 (writeLE64 (fun _ => 0) 0x1008#64 0x30#64) 0x1010#64 8#64) 0x1030#64 index

theorem indexArgs_words (index : BitVec 64) :
    readLE64 (indexArgs index) (EdgeCallPtr.callArgOffset 0x1000#64) = 0x30#64 ∧
      readLE64 (indexArgs index) (EdgeCallPtr.callArgSize 0x1000#64) = 8#64 ∧
      readLE64 (indexArgs index) 0x1030#64 = index := by
  refine ⟨?_, ?_, readLE64_writeLE64_same ..⟩
  · rw [indexArgs, writeLE64, writeLE64,
      show EdgeCallPtr.callArgOffset 0x1000#64 = BitVec.ofNat 64 0x1008 from rfl,
      readLE64_writeBytes_disjoint _ _ (by decide) (by decide) (by decide),
      readLE64_writeBytes_disjoint _ _ (by decide) (by decide) (by decide)]
    exact readLE64_writeLE64_same ..
  · rw [indexArgs, writeLE64,
      show EdgeCallPtr.callArgSize 0x1000#64 = BitVec.ofNat 64 0x1010 from rfl,
      readLE64_writeBytes_disjoint _ _ (by decide) (by decide) (by decide)]
    exact readLE64_writeLE64_same ..

theorem indexArgs_checked (index : BitVec 64) :
    pathOram.g.edgeCallGetPtrFromOffset
        (readLE64 (indexArgs index) (EdgeCallPtr.callArgOffset 0x1000#64))
        (readLE64 (indexArgs index) (EdgeCallPtr.callArgSize 0x1000#64)) = some 0x1030#64 := by
  rw [(indexArgs_words index).1, (indexArgs_words index).2.1]
  decide

theorem pathOram_length : pathOram.stores.length .treearray = 70000 := rfl

/-- The argument is checked, and index 70000 of 70000 buckets is read. -/
theorem readBucket_behind_tree :
    pathOram.g.edgeCallGetPtrFromOffset
        (readLE64 (indexArgs 70000#64) (EdgeCallPtr.callArgOffset 0x1000#64))
        (readLE64 (indexArgs 70000#64) (EdgeCallPtr.callArgSize 0x1000#64)) = some 0x1030#64 ∧
      ¬ Guarded pathOram.stores
        ⟨0x1030#64, (readLE64 (indexArgs 70000#64) (EdgeCallPtr.callArgSize 0x1000#64)).toNat⟩
        (readBucket.accesses pathOram 0x1000#64 (indexArgs 70000#64)) := by
  have hargs := indexArgs_checked 70000#64
  refine ⟨hargs, ?_⟩
  rintro (⟨⟨v, -, hstatus⟩, huntouched⟩ | hall)
  · exact no_status hargs readBucket huntouched v hstatus
  · have hreaches := (all_call hargs (fun _ => trivial) (fun _ => trivial) readBucket).mp hall
    obtain ⟨-, ⟨-, hfails⟩ | hbucket⟩ := hreaches
    · exact hfails.1 rfl
    · rw [bucket_inRange_iff, pathOram_length, (indexArgs_words 70000#64).2.2] at hbucket
      exact absurd hbucket (by decide)

/-- The last bucket is read in range. -/
theorem guarded_iff_last :
    Guarded pathOram.stores
      ⟨0x1030#64, (readLE64 (indexArgs 69999#64) (EdgeCallPtr.callArgSize 0x1000#64)).toNat⟩
      (readBucket.accesses pathOram 0x1000#64 (indexArgs 69999#64)) := by
  refine (guarded_iff pathOram 0x1000#64 (indexArgs 69999#64) 0x1030#64
    (indexArgs_checked 69999#64) readBucket).mpr ⟨?_, .inr ?_⟩
  · rw [(indexArgs_words 69999#64).2.1]
    decide
  · rw [pathOram_length, (indexArgs_words 69999#64).2.2]
    decide

end Handler

end KeystoneSdk
