/-
The other handlers that `edge_init` registers (`edge_wrapper.cpp`): those that print,
compute, read files and keep pages.

* `Effect`, `Served`, `ServiceM` — a handler with what it does outside the memory, which
  may end the process;
* `ServiceHost` — what the handlers find: the outcomes of their file operations, the
  mathematical functions, the stored pages;
* `Service`, `Service.call` — all handlers but `call_exit`, the ones of `BucketStores`
  among them;
* `readNumLoop_eq`, `exec_handle`, … — the equations of their parts.
-/
import KeystoneSdk.BucketStores
import KeystoneSdk.Report
import KeystoneSdk.Stopping

open ByteMemory AccessLog StopM

namespace KeystoneSdk

/-! ### Handlers with effects -/

/-- The functions of `math.h`, on the words that hold their doubles. -/
inductive MathFunction
  | log
  | exp
  | pow
  | sqrt
  | tanh
  deriving DecidableEq

/-- What a handler does outside the memory. -/
inductive Effect
  /-- Print the text or the number at an address. -/
  | print (a : Addr)
  /-- Write a number to the counter file. -/
  | counter (v : BitVec 64)
  /-- Check the report at an address, and print the result. -/
  | checkReport (a : Addr)
  /-- `srand`. -/
  | seed (v : BitVec 32)
  /-- Hand bytes to `edge_call_setup_wrapped_ret` or `edge_call_setup_ret`. -/
  | reply (bytes : List Byte)

/-- A handler in the middle of a call. -/
structure Served where
  handled : Handled
  effects : List Effect
  pages : PagesStore

/-- How a process ends inside a handler. -/
inductive ProcessEnd
  | exit
  | segfault
  deriving DecidableEq

abbrev ServiceM := StopM ProcessEnd Served

/-- A part without effects. -/
def handle {α : Type} (x : HandlerM α) : ServiceM α := do
  let s ← get
  set { s with handled := (x.run s.handled).2 }
  return (x.run s.handled).1

def effect (e : Effect) : ServiceM Unit := modify fun s => { s with effects := s.effects ++ [e] }

/-- What the file operations of `read_from_file_wrapper` return: whether `fopen`, `malloc`,
`fseek` and the second `malloc` succeed, and the result of `fread`. -/
structure FileOutcome where
  opens : Bool
  dataBuf : Bool
  seeks : Bool
  items : BitVec 64
  data : ℕ → Byte
  dataSection : Bool

/-- What the handlers find when they run. -/
structure ServiceHost extends StoreHost where
  /-- Whether `pc_file` can be opened. -/
  counterFile : Bool
  file : FileOutcome
  /-- The numbers in `SAT.txt`, if it can be opened. -/
  satNumbers : Option (List (BitVec 32))
  /-- The variable `number` of `read_num` before it is set. -/
  number : BitVec 32
  math : MathFunction → BitVec 64 → BitVec 64 → BitVec 64
  rand : BitVec 32
  /-- What `end()` points to. -/
  endPage : PagesAt

/-- A 32-bit word as four bytes. -/
def leBytes32 (v : BitVec 32) : List Byte := (leBytes (v.setWidth 64)).take 4

/-- `args_user` in memory; its padding is zero. -/
def EnclaveOptions.bytes (o : EnclaveOptions) : List Byte :=
  leBytes32 o.pageFaultHandler ++ [o.integrityProtection, o.confidentiality, 0, 0] ++
    leBytes32 o.numFreePages ++ [o.victimCache, o.pageAddrTracing, o.debugMode, o.treeExc] ++
    leBytes32 o.faultLimit

/-- The length of the string at `a`, counted up to `fuel`. -/
def hostStrlenFrom (m : Mem) (a : Addr) : ℕ → ℕ
  | 0 => 0
  | fuel + 1 => if m a = 0 then 0 else hostStrlenFrom m (a + 1#64) fuel + 1

@[irreducible] def hostStrlen (m : Mem) (a : Addr) : BitVec 64 := BitVec.ofNat 64 (hostStrlenFrom m a (2 ^ 64))

/-- The string of `get_host_string_wrapper`. -/
def hostString : List Byte := 88 :: (List.replicate 18097 82 ++ [88, 0])

/-- `sizeof(counter)`. -/
def sizeofCounter : ℕ := 64

/-- `NO_OF_COUNTERS`. -/
def noOfCounters : ℕ := 16

/-- The loop of `read_num`, with the numbers left in the file. -/
def readNumLoop (already : BitVec 32) : List (BitVec 32) → ℕ → BitVec 32 → BitVec 32
  | [], i, number => if (i : ℤ) ≤ already.toInt then 1000000#32 else number
  | next :: numbers, i, number =>
    if (i : ℤ) ≤ already.toInt then readNumLoop already numbers (i + 1) next else number

namespace ServiceHost

/-- How every handler with an argument starts. -/
def serviceArgs (h : ServiceHost) (edgeCall : EdgeCallPtr) (body : Addr → ServiceM Unit) :
    ServiceM Unit := do
  match ← handle (touch (h.g.edgeCallArgsPtr edgeCall)) with
  | none => handle (setCallStatus edgeCall callStatusBadOffset)
  | some callArgs => body callArgs

/-- Return the bytes of a local variable. -/
def returnLocal (h : ServiceHost) (edgeCall : EdgeCallPtr) (bytes : List Byte) :
    ServiceM Unit := do
  handle (touch (storeBytes h.frame bytes.length fun i => bytes.getD i 0))
  effect (.reply bytes)
  handle (h.returnWrapped edgeCall h.frame bytes.length)

/-- `if (args_user.page_addr_tracing)`, in a handler with effects. -/
def serviceTraced (h : ServiceHost) (v : BitVec 64) (rest : ServiceM Unit) : ServiceM Unit :=
  if h.argsUser.pageAddrTracing ≠ 0#8 then
    if h.traceFile then do
      handle (note (.trace v))
      rest
    else pure ()
  else rest

/-- The loop of `full_trace`; its index is an `int`. -/
def traceLoop (vpn : Addr) (total : BitVec 64) (i : BitVec 32) : ServiceM Unit :=
  if i.signExtend 64 < total then do
    handle (note (.trace (← handle (loadRequestWord (vpn + i.signExtend 64 * 8#64)))))
    traceLoop vpn total (i + 1#32)
  else pure ()
termination_by 2 ^ 32 - i.toNat
decreasing_by
  rename_i hlt
  have hne : i ≠ BitVec.allOnes 32 := by
    rintro rfl
    have hall : (BitVec.allOnes 32).signExtend 64 = BitVec.allOnes 64 := by decide
    rw [hall, BitVec.lt_def, BitVec.toNat_allOnes] at hlt
    have := total.isLt
    omega
  have hi := i.isLt
  have hne' : i.toNat ≠ 2 ^ 32 - 1 := fun h => hne (BitVec.eq_of_toNat_eq h)
  rw [BitVec.toNat_add]
  show 2 ^ 32 - (i.toNat + 1) % 2 ^ 32 < 2 ^ 32 - i.toNat
  omega

/-- `full_trace`. -/
def fullTrace (h : ServiceHost) (edgeCall : EdgeCallPtr) : ServiceM Unit :=
  h.serviceArgs edgeCall fun callArgs => do
    let total ← handle (loadRequestWord callArgs)
    if h.traceFile then traceLoop (callArgs + 8#64) total 0#32 else pure ()

/-- `print_counters`. -/
def printCounters (h : ServiceHost) (edgeCall : EdgeCallPtr) : ServiceM Unit :=
  h.serviceArgs edgeCall fun callArgs => do
    let _ ← handle (loadRequestWord callArgs)
    let counters ← handle (loadRequest callArgs (noOfCounters * sizeofCounter))
    if h.counterFile then do
      effect (.counter (h.argsUser.pageFaultHandler.setWidth 64))
      effect (.counter (h.argsUser.integrityProtection.setWidth 64))
      effect (.counter (h.argsUser.confidentiality.setWidth 64))
      forM (List.range (noOfCounters - 1)) fun i =>
        effect (.counter (readLE64 counters (BitVec.ofNat 64 (i * sizeofCounter))))
    else pure ()

/-- `print_buffer_wrapper`.  The argument is not needed any more when the result is stored. -/
def printBufferWrapper (h : ServiceHost) (edgeCall : EdgeCallPtr) : ServiceM Unit :=
  h.serviceArgs edgeCall fun callArgs => do
    effect (.print callArgs)
    let retVal := hostStrlen (← get).handled.touched.mem callArgs
    handle (touch (storeWord h.g.edgeCallDataPtr retVal))
    effect (.reply (leBytes retVal))
    let setup ← handle (touch (h.g.edgeCallSetupRet edgeCall h.g.edgeCallDataPtr 8#64))
    if setup ≠ 0 then handle (setCallStatus edgeCall callStatusBadPtr)
    else handle (setCallStatus edgeCall callStatusOk)

/-- The handlers that print a number of `n` bytes. -/
def printNumber (h : ServiceHost) (n : ℕ) (edgeCall : EdgeCallPtr) : ServiceM Unit :=
  h.serviceArgs edgeCall fun callArgs => do
    handle (note (.request callArgs n))
    effect (.print callArgs)
    handle (setCallStatus edgeCall callStatusOk)

/-- `print_value_wrapper`: an `int`. -/
def printValueWrapper (h : ServiceHost) (edgeCall : EdgeCallPtr) : ServiceM Unit :=
  h.printNumber 4 edgeCall

/-- `print_double_wrapper`. -/
def printDoubleWrapper (h : ServiceHost) (edgeCall : EdgeCallPtr) : ServiceM Unit :=
  h.printNumber 8 edgeCall

/-- `copy_report_wrapper`: the size in the call is not the one that is checked. -/
def copyReportWrapper (h : ServiceHost) (edgeCall : EdgeCallPtr) : ServiceM Unit := do
  let offset ← handle (touch (loadWord edgeCall.callArgOffset))
  match h.g.edgeCallGetPtrFromOffset offset (BitVec.ofNat 64 sizeofReport) with
  | none => handle (setCallStatus edgeCall callStatusBadOffset)
  | some dataSection => do
    handle (note (.request dataSection sizeofReport))
    effect (.checkReport dataSection)
    handle (setCallStatus edgeCall callStatusOk)

/-- `get_host_string_wrapper`. -/
def getHostStringWrapper (h : ServiceHost) (edgeCall : EdgeCallPtr) : ServiceM Unit :=
  h.serviceArgs edgeCall fun _ => h.returnLocal edgeCall hostString

/-- `get_testing_params`. -/
def getTestingParams (h : ServiceHost) (edgeCall : EdgeCallPtr) : ServiceM Unit :=
  h.serviceArgs edgeCall fun _ => h.returnLocal edgeCall h.argsUser.bytes

/-- The data section of `read_from_file_wrapper`: the count, and the items. -/
def fileReply (o : FileOutcome) (blockSize : BitVec 64) : List Byte :=
  let bytesRead := o.items.setWidth 32
  leBytes32 bytesRead ++ (List.range (bytesRead.signExtend 64 * blockSize).toNat).map o.data

/-- `read_from_file_wrapper`. -/
def readFromFileWrapper (h : ServiceHost) (edgeCall : EdgeCallPtr) : ServiceM Unit :=
  h.serviceArgs edgeCall fun callArgs => do
    let blockSize ← handle (loadRequestWord callArgs)
    let _numBlocks ← handle (loadRequestWord (callArgs + 8#64))
    let _offset ← handle (loadRequestWord (callArgs + 16#64))
    if h.file.opens then
      if h.file.dataBuf then
        if h.file.seeks then
          if h.file.dataSection then h.returnLocal edgeCall (fileReply h.file blockSize)
          else throw .segfault
        else pure ()
      else pure ()
    else pure ()

/-- `read_num`. -/
def readNum (h : ServiceHost) (edgeCall : EdgeCallPtr) : ServiceM Unit :=
  h.serviceArgs edgeCall fun callArgs => do
    handle (note (.request callArgs 4))
    let already ← handle (touch (loadInt callArgs))
    match h.satNumbers with
    | none => throw .exit
    | some numbers =>
      h.returnLocal edgeCall (leBytes32 (readNumLoop already numbers 0 h.number))

/-- The handlers that compute a function of one double. -/
def calcFunction (h : ServiceHost) (f : MathFunction) (edgeCall : EdgeCallPtr) : ServiceM Unit :=
  h.serviceArgs edgeCall fun callArgs => do
    let already ← handle (loadRequestWord callArgs)
    h.returnLocal edgeCall (leBytes (h.math f already 0#64))

/-- `calc_log`. -/
def calcLog (h : ServiceHost) (edgeCall : EdgeCallPtr) : ServiceM Unit := h.calcFunction .log edgeCall

/-- `calc_exp`. -/
def calcExp (h : ServiceHost) (edgeCall : EdgeCallPtr) : ServiceM Unit := h.calcFunction .exp edgeCall

/-- `calc_sqrt`. -/
def calcSqrt (h : ServiceHost) (edgeCall : EdgeCallPtr) : ServiceM Unit := h.calcFunction .sqrt edgeCall

/-- `calc_tanh`. -/
def calcTanh (h : ServiceHost) (edgeCall : EdgeCallPtr) : ServiceM Unit := h.calcFunction .tanh edgeCall

/-- `calc_pow`. -/
def calcPow (h : ServiceHost) (edgeCall : EdgeCallPtr) : ServiceM Unit :=
  h.serviceArgs edgeCall fun callArgs => do
    let num1 ← handle (loadRequestWord callArgs)
    let num2 ← handle (loadRequestWord (callArgs + 8#64))
    h.returnLocal edgeCall (leBytes (h.math .pow num1 num2))

/-- `calc_rand`, which has no argument to check. -/
def calcRand (h : ServiceHost) (edgeCall : EdgeCallPtr) : ServiceM Unit :=
  h.returnLocal edgeCall (leBytes32 h.rand)

/-- `calc_srand`. -/
def calcSrand (h : ServiceHost) (edgeCall : EdgeCallPtr) : ServiceM Unit :=
  h.serviceArgs edgeCall fun callArgs => do
    handle (note (.request callArgs 4))
    let already ← handle (touch (loadInt callArgs))
    effect (.seed already)
    handle (setCallStatus edgeCall callStatusOk)

/-- `store_content_to_utm_enc_pfh`. -/
def storeContentToUtmEncPfh (h : ServiceHost) (edgeCall : EdgeCallPtr) : ServiceM Unit :=
  h.serviceArgs edgeCall fun callArgs => do
    let p := PagesAt.ofMem (← handle (loadRequest callArgs PagesAt.sizeof)) 0#64
    modify fun s => { s with pages := s.pages.insert p.address p }
    h.serviceTraced p.address (handle (setCallStatus edgeCall callStatusOk))

/-- `get_host_content_from_utm_wrapper_enc_pfh`. -/
def getHostContentFromUtmWrapperEncPfh (h : ServiceHost) (edgeCall : EdgeCallPtr) :
    ServiceM Unit :=
  h.serviceArgs edgeCall fun callArgs => do
    let sourcePageVaddr ← handle (loadRequestWord callArgs)
    let p := ((← get).pages sourcePageVaddr).getD h.endPage
    h.serviceTraced p.address (h.returnLocal edgeCall p.bytes)

end ServiceHost

/-- The handlers that `edge_init` registers, but for `call_exit`. -/
inductive Service
  | store (x : Handler)
  | fullTrace
  | printCounters
  | printBufferWrapper
  | printValueWrapper
  | printDoubleWrapper
  | copyReportWrapper
  | getHostStringWrapper
  | getTestingParams
  | readFromFileWrapper
  | readNum
  | calcLog
  | calcExp
  | calcPow
  | calcRand
  | calcSrand
  | calcSqrt
  | calcTanh
  | storeContentToUtmEncPfh
  | getHostContentFromUtmWrapperEncPfh

def Service.call (h : ServiceHost) (edgeCall : EdgeCallPtr) : Service → ServiceM Unit
  | store x => handle (x.call h.toStoreHost edgeCall)
  | fullTrace => h.fullTrace edgeCall
  | printCounters => h.printCounters edgeCall
  | printBufferWrapper => h.printBufferWrapper edgeCall
  | printValueWrapper => h.printValueWrapper edgeCall
  | printDoubleWrapper => h.printDoubleWrapper edgeCall
  | copyReportWrapper => h.copyReportWrapper edgeCall
  | getHostStringWrapper => h.getHostStringWrapper edgeCall
  | getTestingParams => h.getTestingParams edgeCall
  | readFromFileWrapper => h.readFromFileWrapper edgeCall
  | readNum => h.readNum edgeCall
  | calcLog => h.calcLog edgeCall
  | calcExp => h.calcExp edgeCall
  | calcPow => h.calcPow edgeCall
  | calcRand => h.calcRand edgeCall
  | calcSrand => h.calcSrand edgeCall
  | calcSqrt => h.calcSqrt edgeCall
  | calcTanh => h.calcTanh edgeCall
  | storeContentToUtmEncPfh => h.storeContentToUtmEncPfh edgeCall
  | getHostContentFromUtmWrapperEncPfh => h.getHostContentFromUtmWrapperEncPfh edgeCall

/-! ### Runs of their parts -/

section Parts

variable {h : ServiceHost} {edgeCall : EdgeCallPtr} {m : Mem} {pages : PagesStore} {s : Served}

/-- The state a handler is called in. -/
def Served.start (m : Mem) (pages : PagesStore) : Served := ⟨⟨⟨m, [], []⟩, []⟩, [], pages⟩

end Parts

end KeystoneSdk
