/-
The heap allocator of the enclave application library (`tiny-malloc.c`, with
`MALLOC_DIRECTION` 1).

* `TinyMalloc` — the memory, `__malloc_freelist`, `__malloc_end` and whatever
  `s_brk` works on;
* `Fle` — a `fle *`: the free list itself or the `next` field of a block;
* `malloc`, `free`, `realloc`, `calloc`, `cfree`, `memalign`, `valloc`,
  `pvalloc` — the allocator over them.  The address of the caller's frame, which
  `CAN_ALLOC_P` reads, is an argument;
* a function is `none` when one of its loops does not end.

`s_brk` is a system call of the runtime: a parameter.  Memory is flat, so that a
store through a null pointer lands at address 0 instead of trapping.
-/
import KeystoneSdk.AppString

open ByteMemory

namespace KeystoneSdk

/-- The state of the allocator.  `headers` records the address of every word of
a block header that is stored, with what `s_brk` works on at that moment. -/
structure TinyMalloc (σ : Type) where
  mem : Mem
  freelist : Addr
  mallocEnd : Addr
  sys : σ
  headers : List (Addr × σ)

/-- A `fle *`: the address of `__malloc_freelist` or of the `next` field of a
block. -/
inductive Fle
  | freelist
  | next (block : Addr)
  deriving DecidableEq

/-- The linker's `__malloc_start`: the address of an object of type `char *`. -/
structure MallocStart where
  addr : Addr
  nonnull : addr ≠ 0#64
  aligned : addr.toNat % 8 = 0

/-- `s_brk`: the state of the runtime before the call, its argument, and the
result with the state after the call. -/
abbrev SBrk (σ : Type) := σ → BitVec 64 → BitVec 64 × σ

namespace TinyMalloc

variable {σ : Type}

/-! ### Macros -/

/-- `M_ALIGN(x, align)`. -/
def mAlign (x align : BitVec 64) : BitVec 64 := -x &&& (align - 1#64)

/-- `sizeof (struct freelist_entry)`. -/
def sizeofEntry : BitVec 64 := 16#64

/-- `MALLOC_MINIMUM_GAP`. -/
def minimumGap : BitVec 64 := 32#64

/-- `REAL_SIZE(sz)`. -/
def realSize (sz : BitVec 64) : BitVec 64 :=
  if sz < sizeofEntry - 8#64 then sizeofEntry else sz + 8#64 + mAlign sz 8#64

/-- `CAN_ALLOC_P(required)` in a function whose frame is at `frame`. -/
def canAlloc (s : TinyMalloc σ) (frame : Addr) (required : BitVec 64) : Bool :=
  decide (required ≤ frame - s.mallocEnd - minimumGap)

/-! ### Blocks -/

/-- `block->size`. -/
def size (s : TinyMalloc σ) (block : Addr) : BitVec 64 := readLE64 s.mem block

/-- `block->next`. -/
def next (s : TinyMalloc σ) (block : Addr) : Addr := readLE64 s.mem (block + 8#64)

/-- A store to a word of a block header. -/
def storeHeader (s : TinyMalloc σ) (a : Addr) (v : BitVec 64) : TinyMalloc σ :=
  { s with mem := writeLE64 s.mem a v, headers := (a, s.sys) :: s.headers }

def setSize (s : TinyMalloc σ) (block : Addr) (v : BitVec 64) : TinyMalloc σ := s.storeHeader block v

def setNext (s : TinyMalloc σ) (block v : Addr) : TinyMalloc σ := s.storeHeader (block + 8#64) v

/-- `*nextfree`. -/
def deref (s : TinyMalloc σ) : Fle → Addr
  | .freelist => s.freelist
  | .next block => s.next block

/-- `*nextfree = v`. -/
def assign (s : TinyMalloc σ) (nextfree : Fle) (v : Addr) : TinyMalloc σ :=
  match nextfree with
  | .freelist => { s with freelist := v }
  | .next block => s.setNext block v

/-- What `s_brk` works on after `check_range_and_call_sbrk(addr, sz)`. -/
def checkedSys (sBrk : SBrk σ) (sys : σ) (addr : Addr) (sz : BitVec 64) : σ :=
  let (curSbrk, sys) := sBrk sys 0#64
  if curSbrk < addr + sz then (sBrk sys (addr + sz - curSbrk)).2 else sys

/-- `check_range_and_call_sbrk`. -/
def checkRangeAndCallSbrk (sBrk : SBrk σ) (s : TinyMalloc σ) (addr : Addr) (sz : BitVec 64) :
    TinyMalloc σ :=
  { s with sys := checkedSys sBrk s.sys addr sz }

/-- The split of a free block of `oldSize` bytes in `malloc` and `memalign`: what
follows the first `realSize` bytes takes its place on the free list. -/
def splitBlock (s : TinyMalloc σ) (nextfree : Fle) (block : Addr) (oldSize realSize : BitVec 64) :
    TinyMalloc σ :=
  let newsize := oldSize - realSize
  let newnext := s.next block
  let s := s.assign nextfree (block + realSize)
  let s := s.setSize (s.deref nextfree) newsize
  s.setNext (s.deref nextfree) newnext

/-! ### `malloc` -/

/-- What `malloc` does from the label `done` on. -/
def mallocDone (sBrk : SBrk σ) (realSize : BitVec 64) (block : Addr) (s : TinyMalloc σ) :
    Addr × TinyMalloc σ :=
  let s := s.setSize block realSize
  (block + 8#64, s.checkRangeAndCallSbrk sBrk (block + 8#64) realSize)

/-- The loop of `malloc` over the free list, and the allocation after it. -/
def mallocLoop (sBrk : SBrk σ) (frame : Addr) (realSize : BitVec 64) :
    ℕ → Fle → TinyMalloc σ → Option (Addr × TinyMalloc σ)
  | 0, _, _ => none
  | n + 1, nextfree, s =>
    if s.deref nextfree = 0#64 then
      -- no free space at the end of the free list
      if !s.canAlloc frame realSize then
        some (0#64, s)
      else
        let block := s.mallocEnd
        some (mallocDone sBrk realSize block { s with mallocEnd := s.mallocEnd + realSize })
    else
      let block := s.deref nextfree
      if realSize ≤ s.size block then
        if s.size block < realSize + sizeofEntry then
          let s := s.assign nextfree (s.next block)
          some (block + 8#64, s.checkRangeAndCallSbrk sBrk (block + 8#64) realSize)
        else
          let s := s.splitBlock nextfree block (s.size block) realSize
          some (mallocDone sBrk realSize block s)
      else if s.next block = 0#64 ∧ s.mallocEnd = block + s.size block then
        -- the last block of the free list reaches the end of the heap
        let moresize := realSize - s.size block
        if !s.canAlloc frame moresize then
          some (0#64, s)
        else
          let s := s.assign nextfree 0#64
          some (mallocDone sBrk realSize block { s with mallocEnd := block + realSize })
      else
        mallocLoop sBrk frame realSize n (.next block) s

/-- The first lines of `malloc`. -/
def initEnd (start : MallocStart) (s : TinyMalloc σ) : TinyMalloc σ :=
  if s.mallocEnd = 0#64 then { s with mallocEnd := start.addr } else s

def malloc (start : MallocStart) (sBrk : SBrk σ) (frame : Addr) (sz : BitVec 64)
    (s : TinyMalloc σ) : Option (Addr × TinyMalloc σ) :=
  mallocLoop sBrk frame (realSize sz) pointerRounds .freelist (s.initEnd start)

/-! ### `free` -/

/-- The loop of `free` over the free list, and the insertion after it. -/
def freeLoop (block : Addr) : ℕ → Fle → TinyMalloc σ → Option (TinyMalloc σ)
  | 0, _, _ => none
  | n + 1, nextfree, s =>
    if s.deref nextfree = 0#64 then
      let s := s.setNext block (s.deref nextfree)
      some (s.assign nextfree block)
    else
      let thisblock := s.deref nextfree
      if thisblock + s.size thisblock = block then
        let s := s.setSize thisblock (s.size thisblock + s.size block)
        if s.next thisblock ≠ 0#64 ∧ block + s.size block = s.next thisblock then
          let s := s.setSize thisblock (s.size thisblock + s.size (s.next thisblock))
          some (s.setNext thisblock (s.next (s.next thisblock)))
        else
          some s
      else if thisblock = block + s.size block then
        let s := s.setSize block (s.size block + s.size thisblock)
        let s := s.setNext block (s.next thisblock)
        some (s.assign nextfree block)
      else if block < thisblock then
        let s := s.setNext block (s.deref nextfree)
        some (s.assign nextfree block)
      else
        freeLoop block n (.next thisblock) s

def free (blockP : Addr) (s : TinyMalloc σ) : Option (TinyMalloc σ) :=
  let block := blockP - 8#64
  if blockP = 0#64 then some s else freeLoop block pointerRounds .freelist s

def cfree (p : Addr) (s : TinyMalloc σ) : Option (TinyMalloc σ) := free p s

/-! ### `realloc`, `calloc` -/

def realloc (start : MallocStart) (sBrk : SBrk σ) (frame blockP : Addr) (sz : BitVec 64)
    (s : TinyMalloc σ) : Option (Addr × TinyMalloc σ) := do
  let block := blockP - 8#64
  let realSize := realSize sz
  if blockP = 0#64 then
    malloc start sBrk frame sz s
  else
    let oldRealSize := s.size block
    if oldRealSize < realSize then
      let oldSize := oldRealSize - 8#64
      let (result, s) ← malloc start sBrk frame sz s
      if result = 0#64 then
        return (0#64, s)
      else
        let mem ← memcpy s.mem result blockP (if oldSize < sz then oldSize else sz)
        let s ← free blockP { s with mem := mem }
        return (result, s)
    else if sizeofEntry ≤ oldRealSize - realSize then
      let newblock := block + realSize
      let s := s.setSize block realSize
      let s := s.setSize newblock (oldRealSize - realSize)
      let s ← free (newblock + 8#64) s
      return (blockP, s)
    else
      return (blockP, s)

def calloc (start : MallocStart) (sBrk : SBrk σ) (frame : Addr) (n elemSize : BitVec 64)
    (s : TinyMalloc σ) : Option (Addr × TinyMalloc σ) := do
  let sz := n * elemSize
  let (result, s) ← malloc start sBrk frame sz s
  if result ≠ 0#64 then
    let mem ← memset s.mem result 0#32 sz
    return (result, { s with mem := mem })
  else
    return (result, s)

/-! ### `memalign` -/

/-- `before_size`: the space left in front of an aligned block, which must hold a
free block of its own. -/
def beforeSize (block : Addr) (align : BitVec 64) : BitVec 64 :=
  let beforeSize := mAlign (block + 8#64) align
  if beforeSize ≠ 0#64 then sizeofEntry + mAlign (block + sizeofEntry + 8#64) align
  else beforeSize

/-- The part of `memalign` that takes its block out of a free block of
`oldSize` bytes. -/
def memalignCarve (realSize : BitVec 64) (nextfree : Fle) (block : Addr)
    (oldSize beforeSize : BitVec 64) (s : TinyMalloc σ) : Addr × TinyMalloc σ :=
  if beforeSize ≠ 0#64 then
    let oldBlock := block
    let s := s.setSize oldBlock beforeSize
    let block := block + beforeSize
    if oldSize - beforeSize ≤ realSize + sizeofEntry then
      let s := s.setSize block (oldSize - beforeSize)
      (block + 8#64, s)
    else
      let newBlock := block + realSize
      let s := s.setSize newBlock (oldSize - beforeSize - realSize)
      let s := s.setNext newBlock (s.next oldBlock)
      let s := s.setNext oldBlock newBlock
      (block + 8#64, s.setSize block realSize)
  else if oldSize ≤ realSize + sizeofEntry then
    let s := s.assign nextfree (s.next block)
    (block + 8#64, s)
  else
    let s := s.splitBlock nextfree block oldSize realSize
    (block + 8#64, s.setSize block realSize)

/-- One round of the loop of `memalign` from the computation of `before_size`
on; `again` is the next round. -/
def memalignBlock (frame : Addr) (align realSize : BitVec 64) (nextfree : Fle) (block : Addr)
    (oldSize : BitVec 64) (again : TinyMalloc σ → Option (Addr × TinyMalloc σ))
    (s : TinyMalloc σ) : Option (Addr × TinyMalloc σ) :=
  let beforeSize := beforeSize block align
  if s.next block = 0#64 ∧ oldSize < realSize + beforeSize ∧
      s.mallocEnd = block + s.size block then
    -- the last block of the free list reaches the end of the heap
    if !s.canAlloc frame (beforeSize + realSize - s.size block) then
      some (0#64, s)
    else
      let s := { s with mallocEnd := block + beforeSize + realSize }
      let oldSize := beforeSize + realSize
      let s := s.setSize block oldSize
      if realSize + beforeSize ≤ oldSize then
        some (memalignCarve realSize nextfree block oldSize beforeSize s)
      else
        again s
  else if realSize + beforeSize ≤ oldSize then
    some (memalignCarve realSize nextfree block oldSize beforeSize s)
  else
    again s

/-- The loop of `memalign` over the free list. -/
def memalignLoop (frame : Addr) (align realSize : BitVec 64) :
    ℕ → Fle → TinyMalloc σ → Option (Addr × TinyMalloc σ)
  | 0, _, _ => none
  | n + 1, nextfree, s =>
    if s.deref nextfree = 0#64 then
      let block := s.mallocEnd
      let oldSize := realSize + mAlign (s.mallocEnd + 8#64) align
      if !s.canAlloc frame oldSize then
        some (0#64, s)
      else
        let s := { s with mallocEnd := s.mallocEnd + oldSize }
        let s := s.assign nextfree block
        let s := s.setSize block oldSize
        let s := s.setNext block 0#64
        memalignBlock frame align realSize nextfree block oldSize
          (memalignLoop frame align realSize n (.next block)) s
    else
      let block := s.deref nextfree
      memalignBlock frame align realSize nextfree block (s.size block)
        (memalignLoop frame align realSize n (.next block)) s

/-- The check of `memalign` on its first argument. -/
def badAlign (align : BitVec 64) : Bool :=
  align &&& (align - 1#64) != 0#64 || align == 0#64

def memalign (frame : Addr) (align sz : BitVec 64) (s : TinyMalloc σ) :
    Option (Addr × TinyMalloc σ) :=
  if badAlign align then some (0#64, s)
  else memalignLoop frame align (realSize sz) pointerRounds .freelist s

def valloc (frame : Addr) (sz : BitVec 64) (s : TinyMalloc σ) : Option (Addr × TinyMalloc σ) :=
  memalign frame 128#64 sz s

def pvalloc (frame : Addr) (sz : BitVec 64) (s : TinyMalloc σ) : Option (Addr × TinyMalloc σ) :=
  memalign frame 128#64 (sz + mAlign sz 128#64) s

end TinyMalloc

end KeystoneSdk
