/-
The enclave loader of `keystone.cpp`, in simulated mode.

* `allocPage`, `loadELF`, `initStack`, `loadUntrusted` — the four producers of
  mappings, with the loops of `loadELF` as functions of their own;
* `calculateRequiredPages`, `prepareEnclave` — the memory reserved for them;
* `loadSequence` — the order in which `init` calls the producers (build
  without `USE_FREEMEM`);
* `validateAndHashEnclave`, `init` — measurement, and the whole of
  `Keystone::init` for simulated `Params`.
-/
import KeystoneSdk.Page
import KeystoneSdk.ElfFile
import KeystoneSdk.HashUtil

open ByteMemory

namespace KeystoneSdk

/-! ### Page modes (`keystone_user.h`) -/

def rtNoexec : BitVec 32 := 0#32
def userNoexec : BitVec 32 := 1#32
def rtFull : BitVec 32 := 2#32
def userFull : BitVec 32 := 3#32
def utmFull : BitVec 32 := 4#32

/-- `ELFFile::getPageMode`. -/
def ELFFile.getPageMode (elf : ELFFile) : BitVec 32 := if elf.isRuntime then rtFull else userFull

/-- `class Params`. -/
structure Params where
  simulated : Bool
  untrusted : BitVec 64
  untrustedSize : BitVec 64
  freememSize : BitVec 64

def defaultStackSize : BitVec 64 := 0x20000#64
def defaultStackStart : Vaddr := 0x0000000400000000#64

/-! ### Memory -/

/-- `SimulatedEnclaveMemory::WriteMem` of one page. -/
def writeMem (src : HostPtr) (dst : Vaddr) : Loader Unit :=
  if src.readable 4096 then
    modify fun s => { s with mem := writeBytes s.mem dst 4096 src.bytes }
  else
    throw .segfault

/-- `SimulatedEnclaveMemory::AllocMem`, where `mem` is the block `calloc`
returns inside `allocateAligned`. -/
def allocMem (mem : Vaddr) (size : BitVec 64) : Loader Vaddr := do
  let mask := pageSize - 1#64
  modify fun s => { s with mem := writeBytes s.mem mem (size + pageSize).toNat fun _ => 0 }
  return (mem + mask) &&& ~~~mask

/-- A zeroed page buffer with `length` bytes of `src` copied to `offset`. -/
def copyToPage (offset length : ℕ) (src : HostPtr) : Loader HostPtr :=
  if src.readable length then
    return HostPtr.ofBytes fun i =>
      if offset ≤ i ∧ i < offset + length then src.bytes (i - offset) else 0
  else
    throw .segfault

/-- The static `nullpage` of the loader functions. -/
def nullpage : HostPtr := HostPtr.ofBytes fun _ => 0

/-! ### Producers of mappings -/

/-- The entry flags of a page mode; `none` for a mode `allocPage` rejects. -/
def modeFlags (mode : BitVec 32) : Option (BitVec 64) :=
  if mode = userNoexec then
    some (pteD ||| pteA ||| pteR ||| pteW ||| pteU ||| pteV ||| pteL)
  else if mode = rtNoexec then
    some (pteD ||| pteA ||| pteR ||| pteW ||| pteV ||| pteL)
  else if mode = rtFull then
    some (pteD ||| pteA ||| pteR ||| pteW ||| pteX ||| pteV ||| pteL)
  else if mode = userFull then
    some (pteD ||| pteA ||| pteR ||| pteW ||| pteX ||| pteU ||| pteV ||| pteL)
  else if mode = utmFull then
    some (pteD ||| pteA ||| pteR ||| pteW ||| pteV ||| pteL)
  else
    none

/-- Whether a mode copies the source page into the new page. -/
def modeWrites (mode : BitVec 32) : Bool := mode = rtFull || mode = userFull || mode = utmFull

/-- `Keystone::allocPage`. -/
def allocPage (va : Vaddr) (freeList : FreeList) (src : HostPtr) (mode : BitVec 32) :
    Loader KeystoneStatus := do
  match ← eptWalkCreate va with
  | none => throw .segfault
  | some pte =>
    -- if the page has been already allocated, return the page
    if (← readPte pte) &&& pteV ≠ 0#64 then
      return .keystoneSuccess
    else
      -- otherwise, allocate one from the free list
      let pageAddr := (← get).freeList freeList >>> pageBits
      modify fun s => s.popPage freeList
      match modeFlags mode with
      | none => return .keystoneError
      | some flags =>
        writePte pte (pteCreate pageAddr flags)
        if modeWrites mode then
          writeMem src (pageAddr <<< pageBits)
        return .keystoneSuccess

/-- The number of rounds after which a loop that advances a page-aligned
64-bit address by one page is back where it started. -/
def loopRounds : ℕ := 4503599627370496

/-- The misaligned first page of a segment: the page is zeroed and everything
up to its end is copied from `src`. -/
def loadFirstPage (mode : BitVec 32) (va : Vaddr) (src : HostPtr) :
    Loader (KeystoneStatus × Vaddr × HostPtr) := do
  if isAligned va pageSize then
    return (.keystoneSuccess, va, src)
  else
    let offset := va - pageDown va
    let length := pageUp va - va
    let page ← copyToPage offset.toNat length.toNat src
    let status ← allocPage (pageDown va) .epm page mode
    return (status, va + length, src.add length.toNat)

/-- The loop that loads all pages that do not include a .bss segment. -/
def loadFullPages (mode : BitVec 32) (fileEnd : Vaddr) :
    ℕ → Vaddr → HostPtr → Loader (KeystoneStatus × Vaddr × HostPtr)
  | 0, _, _ => throw .diverges
  | n + 1, va, src => do
    if va + pageSize ≤ fileEnd then
      let status ← allocPage va .epm src mode
      if status ≠ .keystoneSuccess then
        return (.keystoneError, va, src)
      else
        loadFullPages mode fileEnd n (va + pageSize) (src.add 4096)
    else
      return (.keystoneSuccess, va, src)

/-- The page that has both initialized and uninitialized data. -/
def loadMixedPage (mode : BitVec 32) (fileEnd : Vaddr) (va : Vaddr) (src : HostPtr) :
    Loader (KeystoneStatus × Vaddr) := do
  if va < fileEnd then
    let page ← copyToPage 0 (fileEnd - va).toNat src
    let status ← allocPage va .epm page mode
    return (status, va + pageSize)
  else
    return (.keystoneSuccess, va)

/-- The loop that loads the remaining .bss pages. -/
def loadBssPages (mode : BitVec 32) (memoryEnd : Vaddr) : ℕ → Vaddr → Loader KeystoneStatus
  | 0, _ => throw .diverges
  | n + 1, va => do
    if va < memoryEnd then
      let status ← allocPage va .epm nullpage mode
      if status ≠ .keystoneSuccess then
        return .keystoneError
      else
        loadBssPages mode memoryEnd n (va + pageSize)
    else
      return .keystoneSuccess

/-- The body of the loop of `loadELF` for a `PT_LOAD` header. -/
def loadSegment (elf : ELFFile) (mode : BitVec 32) (ph : ElfPhdr) : Loader KeystoneStatus := do
  let start := ph.pVaddr
  let fileEnd := start + ph.pFilesz
  let memoryEnd := start + ph.pMemsz
  let (status, va, src) ← loadFirstPage mode start (elf.getProgramSegment ph)
  if status ≠ .keystoneSuccess then
    return .keystoneError
  else
    let (status, va, src) ← loadFullPages mode fileEnd loopRounds va src
    if status ≠ .keystoneSuccess then
      return .keystoneError
    else
      let (status, va) ← loadMixedPage mode fileEnd va src
      if status ≠ .keystoneSuccess then
        return .keystoneError
      else
        loadBssPages mode memoryEnd loopRounds va

/-- The loop of `loadELF` over the program headers. -/
def loadSegments (elf : ELFFile) (mode : BitVec 32) : List ElfPhdr → Loader KeystoneStatus
  | [] => return .keystoneSuccess
  | ph :: rest => do
    if ph.pType ≠ ptLoad then
      loadSegments elf mode rest
    else
      let status ← loadSegment elf mode ph
      if status ≠ .keystoneSuccess then
        return .keystoneError
      else
        loadSegments elf mode rest

/-- `Keystone::loadELF`, with the value it leaves in `*data_start`. -/
def loadELF (elf : ELFFile) (dataStart : Vaddr) : Loader (KeystoneStatus × Vaddr) := do
  let mode := elf.getPageMode
  let numPages := roundDown elf.getTotalMemorySize pageBits / pageSize
  let count ← epmAllocVspace elf.minVaddr numPages
  if count ≠ numPages.toNat then
    return (.keystoneError, dataStart)
  else
    let dataStart := (← get).epmFreeList
    let status ← loadSegments elf mode elf.phdrs
    return (status, dataStart)

/-- The loop of `initStack`. -/
def initStackLoop (isRt : Bool) : ℕ → Vaddr → Loader KeystoneStatus
  | 0, _ => return .keystoneSuccess
  | n + 1, vaStartStk => do
    let status ← allocPage vaStartStk .epm nullpage (if isRt then rtNoexec else userNoexec)
    if status = .keystoneError then
      return .keystoneError
    else
      initStackLoop isRt n (vaStartStk + pageSize)

/-- `Keystone::initStack`. -/
def initStack (start : Vaddr) (size : BitVec 64) (isRt : Bool) : Loader KeystoneStatus :=
  let highAddr := roundUp start pageBits
  let vaStartStk := roundDown (highAddr - size) pageBits
  -- `int stk_pages`
  let stkPages : BitVec 32 := ((highAddr - vaStartStk) / pageSize).setWidth 32
  initStackLoop isRt stkPages.toInt.toNat vaStartStk

/-- The loop of `loadUntrusted`: a failed `allocPage` is only reported. -/
def loadUntrustedLoop (vaEnd : Vaddr) : ℕ → Vaddr → Loader Unit
  | 0, _ => throw .diverges
  | n + 1, vaStart => do
    if vaStart < vaEnd then
      let _ ← allocPage vaStart .utm nullpage utmFull
      loadUntrustedLoop vaEnd n (vaStart + pageSize)

/-- `Keystone::loadUntrusted`. -/
def loadUntrusted : Loader KeystoneStatus := do
  let s ← get
  let vaStart := roundDown s.untrustedStart pageBits
  let vaEnd := roundUp (s.untrustedStart + s.untrustedSize) pageBits
  loadUntrustedLoop vaEnd loopRounds vaStart
  return .keystoneSuccess

/-! ### Reservation -/

/-- `calculate_required_pages`.  The divisions are integer divisions, so `ceil`
has nothing to round, and the sums are exact in a `double`. -/
def calculateRequiredPages (eappSz rtSz : BitVec 64) : BitVec 64 :=
  eappSz / pageSize + rtSz / pageSize + 15#64

/-- `struct runtime_params_t`. -/
structure RuntimeParams where
  runtimeEntry : BitVec 64
  userEntry : BitVec 64
  untrustedPtr : BitVec 64
  untrustedSize : BitVec 64

/-- The bytes of a `struct runtime_params_t`. -/
def RuntimeParams.bytes (args : RuntimeParams) : List Byte :=
  leBytes args.runtimeEntry ++ leBytes args.userEntry ++ leBytes args.untrustedPtr ++
    leBytes args.untrustedSize

/-- The fields of `struct keystone_ioctl_create_enclave` that `init` uses in
simulated mode. -/
structure KeystoneIoctlCreateEnclave where
  minPages : BitVec 64
  runtimeVaddr : Vaddr
  userVaddr : Vaddr
  ptPtr : Paddr
  runtimePaddr : Paddr
  userPaddr : Paddr
  freePaddr : Paddr
  params : RuntimeParams

/-- `enclp->min_pages`, as `prepareEnclave` computes it. -/
def minPages (runtimeFile enclaveFile : ELFFile) (params : Params) : BitVec 64 :=
  roundUp params.freememSize pageBits / pageSize +
    calculateRequiredPages enclaveFile.getTotalMemorySize runtimeFile.getTotalMemorySize

/-- `Keystone::prepareEnclave` in simulated mode; `mem` is the block `calloc`
returns for the EPM. -/
def prepareEnclave (runtimeFile enclaveFile : ELFFile) (params : Params) (mem : Vaddr)
    (enclp : KeystoneIoctlCreateEnclave) : Loader KeystoneIoctlCreateEnclave := do
  let enclp := { enclp with
    params :=
      { runtimeEntry := runtimeFile.entryPoint
        userEntry := enclaveFile.entryPoint
        untrustedPtr := params.untrusted
        untrustedSize := params.untrustedSize }
    minPages := minPages runtimeFile enclaveFile params
    runtimeVaddr := runtimeFile.minVaddr
    userVaddr := enclaveFile.minVaddr }
  let root ← allocMem mem (pageSize * enclp.minPages)
  modify fun s => { s with
    untrustedSize := params.untrustedSize
    untrustedStart := params.untrusted
    rootPageTable := root
    startAddr := root
    epmFreeList := root + pageSize
    epmPages := [root]
    utmPages := [] }
  return enclp

/-- How far a load sequence got, with the `data_start` of each image. -/
structure LoadResult where
  status : KeystoneStatus
  runtimeData : Vaddr
  userData : Vaddr

/-- The calls of `init` that build the address space, in their order; a failed
call ends the sequence. -/
def loadSequence (runtimeFile enclaveFile : ELFFile) (dataStart : Vaddr) : Loader LoadResult := do
  let (status, runtimeData) ← loadELF runtimeFile dataStart
  if status ≠ .keystoneSuccess then
    return ⟨.keystoneError, runtimeData, runtimeData⟩
  else
    let (status, userData) ← loadELF enclaveFile runtimeData
    if status ≠ .keystoneSuccess then
      return ⟨.keystoneError, runtimeData, userData⟩
    else
      let status ← initStack defaultStackStart defaultStackSize false
      if status ≠ .keystoneSuccess then
        return ⟨.keystoneError, runtimeData, userData⟩
      else
        let status ← loadUntrusted
        return ⟨status, runtimeData, userData⟩

/-! ### Measurement -/

/-- `Keystone::validate_and_hash_enclave`. -/
def validateAndHashEnclave (args : RuntimeParams) (cargs : KeystoneHashEnclave) :
    Loader KeystoneStatus := do
  let s ← get
  let start : WalkState := { hashed := args.bytes, runtimeMaxSeen := 0#64, userMaxSeen := 0#64 }
  let (valid, st) := validateAndHashEpm s.mem cargs riscvPglevelTop s.rootPageTable 0#64 0 start
  if valid = -1 then
    return .keystoneError
  else
    modify fun s => { s with hash := some st.hashed }
    return .keystoneSuccess

/-- What a run of `init` leaves behind: its result and, once it got that far,
the two region descriptions it prepared and the verdict of
`validate_and_hash_enclave`, which it does not look at. -/
structure InitOutcome where
  status : KeystoneStatus
  measured : Option (KeystoneIoctlCreateEnclave × KeystoneHashEnclave × KeystoneStatus)

/-- `Keystone::init` for simulated `Params`.  The two files are the results of
`ELFFile::initialize`, `enclp` is the uninitialized local variable, and
`epmMem`, `utmMem` are the blocks `calloc` returns. -/
def init (runtime enclave : Option ELFFile) (params : Params) (epmMem utmMem : Vaddr)
    (enclp : KeystoneIoctlCreateEnclave) (dataStart : Vaddr) : Loader InitOutcome := do
  match runtime, enclave with
  | some runtimeFile, some enclaveFile =>
    let enclp ← prepareEnclave runtimeFile enclaveFile params epmMem enclp
    let startAddr := (← get).startAddr
    let (status, dataStart) ← loadELF runtimeFile dataStart
    if status ≠ .keystoneSuccess then
      return ⟨.keystoneError, none⟩
    else
      let hashRuntimePaddr := (← get).epmFreeList
      let enclp := { enclp with runtimePaddr := (dataStart - startAddr) + enclp.ptPtr }
      let (status, dataStart) ← loadELF enclaveFile dataStart
      if status ≠ .keystoneSuccess then
        return ⟨.keystoneError, none⟩
      else
        let hashUserPaddr := (← get).epmFreeList
        let enclp := { enclp with userPaddr := (dataStart - startAddr) + enclp.ptPtr }
        let status ← initStack defaultStackStart defaultStackSize false
        if status ≠ .keystoneSuccess then
          return ⟨.keystoneError, none⟩
        else
          let utmFreeList ← allocMem utmMem enclp.params.untrustedSize
          modify fun s => { s with utmFreeList := utmFreeList }
          let hashFreePaddr := ((← get).epmFreeList - startAddr) + enclp.ptPtr
          let _ ← loadUntrusted
          let enclp := { enclp with freePaddr := ((← get).epmFreeList - startAddr) + enclp.ptPtr }
          let hashEnclave : KeystoneHashEnclave :=
            { epmPaddr := (← get).rootPageTable
              epmSize := pageSize * enclp.minPages
              utmPaddr := utmFreeList
              utmSize := params.untrustedSize
              runtimePaddr := hashRuntimePaddr
              userPaddr := hashUserPaddr
              freePaddr := hashFreePaddr
              untrustedPtr := enclp.params.untrustedPtr
              untrustedSize := enclp.params.untrustedSize }
          let verdict ← validateAndHashEnclave enclp.params hashEnclave
          return ⟨.keystoneSuccess, some (enclp, hashEnclave, verdict)⟩
  | _, _ => return ⟨.keystoneError, none⟩

end KeystoneSdk
