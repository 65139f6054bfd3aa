/-
The page table walker of `page.h`, over the simulated enclave memory.

The loader is a computation over the fields of `class Keystone` that it reads
and changes, with the memory behind them (`Loader`).  A call that never comes
back ends in a `Stop`: the host program faults, or loops forever.

* `eptWalkLoop`, `eptContinueWalkCreate`, `eptWalkInternal` — the walk and its
  mutual recursion with table creation;
* `eptWalkCreate`, `eptWalk`, `epmVaToPa`, `epmAllocVspace` — its callers.

`epmPages` and `utmPages` record the pages popped from the two free lists; the
code has no such variables and never reads them.
-/
import KeystoneSdk.Stopping
import KeystoneSdk.HostCommon

open ByteMemory

namespace KeystoneSdk

/-- Why a call never comes back. -/
inductive Stop
  | segfault
  | diverges
  deriving DecidableEq, Repr

/-- The fields of `class Keystone` the loader uses, and the memory they point
into. -/
structure Keystone where
  mem : Mem
  rootPageTable : Vaddr
  startAddr : Vaddr
  epmFreeList : Vaddr
  utmFreeList : Vaddr
  untrustedStart : Vaddr
  untrustedSize : Vaddr
  /-- The bytes whose digest `hash` holds, once an enclave has been measured. -/
  hash : Option (List Byte)
  /-- Pages taken from the EPM: the root table, then every page popped from
  `epm_free_list`, in order. -/
  epmPages : List Vaddr
  /-- Pages popped from `utm_free_list`, in order. -/
  utmPages : List Vaddr

abbrev Loader (α : Type) := StopM Stop Keystone α

/-- The two variables a `vaddr_t *free_list` argument can point to. -/
inductive FreeList
  | epm
  | utm
  deriving DecidableEq, Repr

/-- The value of a free list variable. -/
def Keystone.freeList (s : Keystone) : FreeList → Vaddr
  | .epm => s.epmFreeList
  | .utm => s.utmFreeList

/-- `*free_list += PAGE_SIZE`. -/
def Keystone.popPage (s : Keystone) : FreeList → Keystone
  | .epm => { s with
      epmFreeList := s.epmFreeList + pageSize
      epmPages := s.epmPages ++ [s.epmFreeList] }
  | .utm => { s with
      utmFreeList := s.utmFreeList + pageSize
      utmPages := s.utmPages ++ [s.utmFreeList] }

@[simp] theorem Keystone.popPage_mem (s : Keystone) (l : FreeList) :
    (s.popPage l).mem = s.mem := by
  cases l <;> simp [Keystone.popPage]

/-- `*pte`. -/
def readPte (pte : Addr) : Loader Pte := do
  return readLE64 (← get).mem pte

/-- `*pte = v`. -/
def writePte (pte : Addr) (v : Pte) : Loader Unit :=
  modify fun s => { s with mem := writeLE64 s.mem pte v }

/-- `SimulatedEnclaveMemory::ReadMem`. -/
def readMem (src : Vaddr) : Vaddr := src

/-! ### The walk -/

/-- The loop of `__ept_walk_internal`, from walk level `i` and table `t` on;
`missing` is what happens at an invalid directory entry. -/
def eptWalkLoop (addr : Vaddr) (missing : Addr → Loader (Option Addr)) :
    ℕ → Addr → Loader (Option Addr)
  | 0, t => return some (t + 8#64 * ptIdx addr 0)
  | i + 1, t => do
    let pte := t + 8#64 * ptIdx addr (i + 1)
    let v ← readPte pte
    if v &&& pteV = 0#64 then
      missing pte
    else
      eptWalkLoop addr missing i (readMem (ptePpn v <<< riscvPgshift))

/-- `__ept_continue_walk_create`: put a fresh table behind `pte` and start the
walk over. -/
def eptContinueWalkCreate (eptWalkCreate : Loader (Option Addr)) (pte : Addr) :
    Loader (Option Addr) := do
  let freePpn := ppn (← get).epmFreeList
  writePte pte (ptdCreate freePpn)
  modify fun s => s.popPage .epm
  eptWalkCreate

/-- `__ept_walk_internal`.  The first argument bounds how often the walk is
started. -/
def eptWalkInternal : ℕ → Vaddr → Bool → Loader (Option Addr)
  | 0, _, _ => throw .diverges
  | n + 1, addr, create => do
    let rootPageTable := (← get).rootPageTable
    eptWalkLoop addr
      (fun pte =>
        if create then eptContinueWalkCreate (eptWalkInternal n addr true) pte
        else return none)
      ((vaBits - riscvPgshift) / riscvPglevelBits - 1) rootPageTable

/-- `__ept_walk_create`.  A walk is started at most three times: there are two
levels of directories, and an entry once made valid stays valid. -/
def eptWalkCreate (addr : Vaddr) : Loader (Option Addr) := eptWalkInternal 3 addr true

/-- `__ept_walk`. -/
def eptWalk (addr : Vaddr) : Loader (Option Addr) := eptWalkInternal 1 addr false

/-- `epm_va_to_pa`. -/
def epmVaToPa (addr : Vaddr) : Loader Paddr := do
  match ← eptWalk addr with
  | some pte => return ptePpn (← readPte pte) <<< riscvPgshift
  | none => return 0#64

/-- The loop of `epm_alloc_vspace`: `n` rounds are left and `count` are done. -/
def epmAllocVspaceLoop : ℕ → Vaddr → ℕ → Loader ℕ
  | 0, _, count => return count
  | n + 1, addr, count => do
    match ← eptWalkCreate addr with
    | none => return count
    | some _ => epmAllocVspaceLoop n (addr + pageSize) (count + 1)

/-- `epm_alloc_vspace`. -/
def epmAllocVspace (addr : Vaddr) (numPages : BitVec 64) : Loader ℕ :=
  epmAllocVspaceLoop numPages.toNat addr 0

end KeystoneSdk
