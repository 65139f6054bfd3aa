/-
The page table validation and measurement of `hash_util.h`.

`validateAndHashEpm` walks the whole address space of an enclave, checks that
every entry is a legal mapping, and feeds the hash: the virtual address of
each contiguous range of pages, then the contents of its pages.  The hash
context is the sequence of bytes fed to it so far.
-/
import KeystoneSdk.HostCommon

open ByteMemory

namespace KeystoneSdk

/-- `struct keystone_hash_enclave`. -/
structure KeystoneHashEnclave where
  epmPaddr : Paddr
  epmSize : BitVec 64
  utmPaddr : Paddr
  utmSize : BitVec 64
  runtimePaddr : Paddr
  userPaddr : Paddr
  freePaddr : Paddr
  untrustedPtr : Vaddr
  untrustedSize : BitVec 64

/-- What a walk changes: the bytes fed to the hash, `*runtime_max_seen` and
`*user_max_seen`. -/
structure WalkState where
  hashed : List Byte
  runtimeMaxSeen : Paddr
  userMaxSeen : Paddr
  deriving DecidableEq

/-- `hash_extend`. -/
def WalkState.hashExtend (st : WalkState) (bytes : List Byte) : WalkState :=
  { st with hashed := st.hashed ++ bytes }

/-- `hash_extend_page`. -/
def WalkState.hashExtendPage (st : WalkState) (m : Mem) (ptr : Paddr) : WalkState :=
  st.hashExtend (readBytes m ptr riscvPgsize)

/-- The physical address an entry points to. -/
def ptePhys (pte : Pte) : Paddr := (pte >>> ptePpnShift) <<< riscvPgshift

namespace KeystoneHashEnclave

def mapInEpm (cargs : KeystoneHashEnclave) (physAddr : Paddr) : Bool :=
  cargs.epmPaddr ≤ physAddr && physAddr < cargs.epmPaddr + cargs.epmSize

def mapInUtm (cargs : KeystoneHashEnclave) (physAddr : Paddr) : Bool :=
  cargs.utmPaddr ≤ physAddr && physAddr < cargs.utmPaddr + cargs.utmSize

def inRuntime (cargs : KeystoneHashEnclave) (physAddr : Paddr) : Bool :=
  cargs.runtimePaddr ≤ physAddr && physAddr < cargs.userPaddr

def inUser (cargs : KeystoneHashEnclave) (physAddr : Paddr) : Bool :=
  cargs.userPaddr ≤ physAddr && physAddr < cargs.freePaddr

/-- The virtual address lies in the untrusted range. -/
def inUntrusted (cargs : KeystoneHashEnclave) (vaStart : Vaddr) : Bool :=
  cargs.untrustedPtr ≤ vaStart && vaStart < cargs.untrustedPtr + cargs.untrustedSize

end KeystoneHashEnclave

/-- The part of the address of entry `i` that is translated at this level: the
highest bit is propagated at the top level. -/
def walkVpn (level : ℕ) (vaddr : Vaddr) (i : ℕ) : Vaddr :=
  if level = riscvPglevelTop ∧ i &&& riscvPgtableHighestBit ≠ 0 then
    (BitVec.allOnes 64 <<< riscvPglevelBits) ||| (BitVec.ofNat 64 i &&& riscvPglevelMask)
  else
    (vaddr <<< riscvPglevelBits) ||| (BitVec.ofNat 64 i &&& riscvPglevelMask)

/-- What the walk does with a level 1 entry, after the range check: `none` is
the jump to `fatal_bail`. -/
def validateLeaf (m : Mem) (cargs : KeystoneHashEnclave) (pte : Pte) (vaStart : Vaddr)
    (st : WalkState) : Option WalkState :=
  let physAddr := ptePhys pte
  if cargs.inUser physAddr ∧ pte &&& pteU = 0#64 then none
  else if cargs.inUntrusted vaStart ∧ ¬ cargs.mapInUtm physAddr then none
  else if cargs.inRuntime physAddr then
    if physAddr ≤ st.runtimeMaxSeen then none
    else some ({ st with runtimeMaxSeen := physAddr }.hashExtendPage m physAddr)
  else if cargs.inUser physAddr then
    if physAddr ≤ st.userMaxSeen then none
    else some ({ st with userMaxSeen := physAddr }.hashExtendPage m physAddr)
  else if cargs.mapInUtm physAddr then some (st.hashExtendPage m physAddr)
  else none

/-- The loop body of `validate_and_hash_epm` for entry `i` of the table `tb`;
`recurse` is the call for the level below.  The first component is the new
value of `contiguous`, or `none` for the jump to `fatal_bail`. -/
def validateEntry (m : Mem) (cargs : KeystoneHashEnclave) (level : ℕ)
    (recurse : Addr → Vaddr → Int → WalkState → Int × WalkState) (tb : Addr) (vaddr : Vaddr)
    (i : ℕ) (contiguous : Int) (st : WalkState) : Option Int × WalkState :=
  let pte := readLE64 m (tb + 8#64 * BitVec.ofNat 64 i)
  if pte = 0#64 then (some 0, st)
  else
    let physAddr := ptePhys pte
    -- EPM may map anything, UTM may not map page tables
    if ¬ cargs.mapInEpm physAddr ∧ (¬ cargs.mapInUtm physAddr ∨ level ≠ 1) then (none, st)
    else
      let vpn := walkVpn level vaddr i
      let vaStart := vpn <<< riscvPgshift
      if level = 1 then
        -- the first virtual address of a contiguous range is included
        let st := if contiguous = 0 then st.hashExtend (leBytes vaStart) else st
        let contiguous := if contiguous = 0 then 1 else contiguous
        match validateLeaf m cargs pte vaStart st with
        | none => (none, st)
        | some st => (some contiguous, st)
      else
        match recurse physAddr vpn contiguous st with
        | (c, st) => if c = -1 then (none, st) else (some c, st)

/-- The loop of `validate_and_hash_epm` over the entries still to be visited. -/
def validateLoop (entry : ℕ → Int → WalkState → Option Int × WalkState) :
    List ℕ → Int → WalkState → Int × WalkState
  | [], contiguous, st => (contiguous, st)
  | i :: rest, contiguous, st =>
    match entry i contiguous st with
    | (none, st) => (-1, st)
    | (some contiguous, st) => validateLoop entry rest contiguous st

/-- `validate_and_hash_epm`.  The code never calls itself below level 1. -/
def validateAndHashEpm (m : Mem) (cargs : KeystoneHashEnclave) :
    ℕ → Addr → Vaddr → Int → WalkState → Int × WalkState
  | 0, _, _, contiguous, st => (contiguous, st)
  | level + 1, tb, vaddr, contiguous, st =>
    validateLoop (validateEntry m cargs (level + 1) (validateAndHashEpm m cargs level) tb vaddr)
      (List.range 512) contiguous st

end KeystoneSdk
