/-
ELF files as the loader sees them (`elf.cpp`, `elf32.cpp`, `elf64.cpp`, `elffile.cpp`).

* `elfNewFile` — the header checks of libelf, for both ELF classes;
* `ELFFile.initialize` — a file is accepted when the checks pass and its lowest
  address is page aligned;
* `getProgramSegment` and the other getters the loader calls.

The program headers are read from the file once, when it is opened: the
mapping is private and read only, so every later read gives the same fields.
-/
import KeystoneSdk.HostCommon

open ByteMemory

namespace KeystoneSdk

/-- What a host pointer sees at each offset; `none` where the access faults. -/
abbrev HostPtr := ℕ → Option Byte

namespace HostPtr

/-- `NULL`. -/
def null : HostPtr := fun _ => none

/-- `ptr + n`. -/
def add (src : HostPtr) (n : ℕ) : HostPtr := fun i => src (n + i)

/-- Whether `memcpy` can read `n` bytes. -/
def readable (src : HostPtr) (n : ℕ) : Bool := (List.range n).all fun i => (src i).isSome

/-- The bytes `memcpy` copies from a readable pointer. -/
def bytes (src : HostPtr) : ℕ → Byte := fun i => (src i).getD 0

/-- A local buffer. -/
def ofBytes (f : ℕ → Byte) : HostPtr := fun i => some (f i)

theorem readable_iff {src : HostPtr} {n : ℕ} :
    src.readable n = true ↔ ∀ i, i < n → (src i).isSome := by
  simp [readable]

@[simp] theorem readable_ofBytes (f : ℕ → Byte) (n : ℕ) : (ofBytes f).readable n = true := by
  simp [readable, ofBytes]

@[simp] theorem bytes_ofBytes (f : ℕ → Byte) : (ofBytes f).bytes = f := rfl

end HostPtr

/-- The fields of a program header, widened as the libelf getters return
them. -/
structure ElfPhdr where
  pType : BitVec 32
  pOffset : BitVec 64
  pVaddr : Vaddr
  pFilesz : BitVec 64
  pMemsz : BitVec 64
  deriving DecidableEq, Repr

def ptLoad : BitVec 32 := 1#32

/-! ### Header checks -/

/-- The little-endian number in the `n` bytes of the file from `off` on. -/
def fileLE (file : List Byte) (off : ℕ) : ℕ → ℕ
  | 0 => 0
  | n + 1 => (file.getD off 0).toNat + 256 * fileLE file (off + 1) n

/-- `elf_check_magic`: the file starts with `ELFMAG`. -/
def elfCheckMagic (file : List Byte) : Bool := file.take 4 == [0x7f#8, 0x45#8, 0x4c#8, 0x46#8]

/-- Where the two ELF classes keep the header fields, and the sizes of their
structures. -/
structure ElfLayout where
  elfClass : ℕ
  ehdrSize : ℕ
  phdrSize : ℕ
  shdrSize : ℕ
  /-- Width in bytes of an address or offset. -/
  word : ℕ
  eEntry : ℕ
  ePhoff : ℕ
  eShoff : ℕ
  ePhentsize : ℕ
  ePhnum : ℕ
  eShentsize : ℕ
  eShnum : ℕ
  eShstrndx : ℕ
  pOffset : ℕ
  pVaddr : ℕ
  pFilesz : ℕ
  pMemsz : ℕ

/-- `Elf32_Ehdr` and `Elf32_Phdr`. -/
def elf32 : ElfLayout where
  elfClass := 1
  ehdrSize := 52
  phdrSize := 32
  shdrSize := 40
  word := 4
  eEntry := 24
  ePhoff := 28
  eShoff := 32
  ePhentsize := 42
  ePhnum := 44
  eShentsize := 46
  eShnum := 48
  eShstrndx := 50
  pOffset := 4
  pVaddr := 8
  pFilesz := 16
  pMemsz := 20

/-- `Elf64_Ehdr` and `Elf64_Phdr`. -/
def elf64 : ElfLayout where
  elfClass := 2
  ehdrSize := 64
  phdrSize := 56
  shdrSize := 64
  word := 8
  eEntry := 24
  ePhoff := 32
  eShoff := 40
  ePhentsize := 54
  ePhnum := 56
  eShentsize := 58
  eShnum := 60
  eShstrndx := 62
  pOffset := 8
  pVaddr := 16
  pFilesz := 32
  pMemsz := 40

/-- The check both classes share. -/
def elfCheckClass (l : ElfLayout) (file : List Byte) : Bool :=
  l.ehdrSize ≤ file.length && elfCheckMagic file && fileLE file 4 1 == l.elfClass &&
    fileLE file l.ePhentsize 2 == l.phdrSize && fileLE file l.eShentsize 2 == l.shdrSize &&
    fileLE file l.eShstrndx 2 < fileLE file l.eShnum 2

/-- `elf32_checkFile`. -/
def elf32CheckFile (file : List Byte) : Bool := elfCheckClass elf32 file

/-- `elf64_checkFile`. -/
def elf64CheckFile (file : List Byte) : Bool := elfCheckClass elf64 file

/-- `elf_checkFile`: the layout of the first class whose check passes. -/
def elfCheckFile (file : List Byte) : Option ElfLayout :=
  if elf32CheckFile file then some elf32
  else if elf64CheckFile file then some elf64
  else none

/-- The check both tables share: `off + entsize * num`, computed in the width
of the class, neither wraps nor leaves the file. -/
def elfCheckTable (l : ElfLayout) (file : List Byte) (offField entsizeField numField : ℕ) : Bool :=
  let off := fileLE file offField l.word
  let tableEnd := (off + fileLE file entsizeField 2 * fileLE file numField 2) % 256 ^ l.word
  tableEnd ≤ file.length && off ≤ tableEnd

/-- `elf_checkProgramHeaderTable`, for either class. -/
def elfCheckProgramHeaderTable (l : ElfLayout) (file : List Byte) : Bool :=
  elfCheckTable l file l.ePhoff l.ePhentsize l.ePhnum

/-- `elf_checkSectionTable`, for either class. -/
def elfCheckSectionTable (l : ElfLayout) (file : List Byte) : Bool :=
  elfCheckTable l file l.eShoff l.eShentsize l.eShnum

/-- Program header `i` of a file that passed the checks. -/
def elfProgramHeader (l : ElfLayout) (file : List Byte) (i : ℕ) : ElfPhdr :=
  let ph := fileLE file l.ePhoff l.word + l.phdrSize * i
  { pType := BitVec.ofNat 32 (fileLE file ph 4)
    pOffset := BitVec.ofNat 64 (fileLE file (ph + l.pOffset) l.word)
    pVaddr := BitVec.ofNat 64 (fileLE file (ph + l.pVaddr) l.word)
    pFilesz := BitVec.ofNat 64 (fileLE file (ph + l.pFilesz) l.word)
    pMemsz := BitVec.ofNat 64 (fileLE file (ph + l.pMemsz) l.word) }

/-- What `elf_newFile` and the getters read from an accepted file. -/
structure ElfImage where
  entryPoint : Vaddr
  phdrs : List ElfPhdr
  deriving DecidableEq

/-- `elf_newFile`. -/
def elfNewFile (file : List Byte) : Option ElfImage := do
  let l ← elfCheckFile file
  if elfCheckProgramHeaderTable l file && elfCheckSectionTable l file then
    some
      { entryPoint := BitVec.ofNat 64 (fileLE file l.eEntry l.word)
        phdrs := (List.range (fileLE file l.ePhnum 2)).map (elfProgramHeader l file) }
  else
    none

/-! ### Writing a file -/

/-- A little-endian number of `n` bytes. -/
def leNumber : ℕ → ℕ → List Byte
  | 0, _ => []
  | n + 1, v => BitVec.ofNat 8 v :: leNumber n (v / 256)

/-- An `Elf64_Phdr`, with the fields the loader does not look at left zero. -/
def elf64PhdrBytes (ph : ElfPhdr) : List Byte :=
  leNumber 4 ph.pType.toNat ++ leNumber 4 0 ++ leNumber 8 ph.pOffset.toNat ++
    leNumber 8 ph.pVaddr.toNat ++ leNumber 8 0 ++ leNumber 8 ph.pFilesz.toNat ++
    leNumber 8 ph.pMemsz.toNat ++ leNumber 8 0

/-- A 64-bit ELF file with the given program headers and data behind them.  Its
one section header lies over the ELF header. -/
def elf64Bytes (entryPoint : Vaddr) (phdrs : List ElfPhdr) (data : List Byte) : List Byte :=
  [0x7f#8, 0x45#8, 0x4c#8, 0x46#8, 2#8, 1#8, 1#8] ++ leNumber 9 0 ++ leNumber 2 2 ++
    leNumber 2 243 ++ leNumber 4 1 ++ leNumber 8 entryPoint.toNat ++ leNumber 8 64 ++
    leNumber 8 0 ++ leNumber 4 0 ++ leNumber 2 64 ++ leNumber 2 56 ++
    leNumber 2 phdrs.length ++ leNumber 2 64 ++ leNumber 2 1 ++ leNumber 2 0 ++
    phdrs.flatMap elf64PhdrBytes ++ data

/-! ### `elffile.cpp` -/

/-- An `ELFFile` after `initialize`. -/
structure ELFFile where
  /-- The `fileSize` bytes mapped at `ptr`. -/
  file : List Byte
  /-- What the host has past the end of the mapped file; `none` where a read
  faults. -/
  beyond : HostPtr
  entryPoint : Vaddr
  phdrs : List ElfPhdr
  minVaddr : Vaddr
  maxVaddr : Vaddr
  isRuntime : Bool

/-- One round of `elf_getMemoryBounds` over the bounds found so far. -/
def memoryBoundsStep (b : Vaddr × Vaddr) (ph : ElfPhdr) : Vaddr × Vaddr :=
  if ph.pMemsz = 0#64 then b
  else
    let sectMin := ph.pVaddr
    let sectMax := sectMin + ph.pMemsz
    (if sectMin < b.1 then sectMin else b.1, if b.2 < sectMax then sectMax else b.2)

/-- `elf_getMemoryBounds` for `VIRTUAL` addresses. -/
def elfGetMemoryBounds (phdrs : List ElfPhdr) : Vaddr × Vaddr :=
  phdrs.foldl memoryBoundsStep (BitVec.allOnes 64, 0#64)

/-- `ELFFile::initialize` on a file that could be opened and mapped. -/
def ELFFile.initialize (file : List Byte) (beyond : HostPtr) (isRuntime : Bool) :
    Option ELFFile := do
  if file.length = 0 then none
  else
    let elf ← elfNewFile file
    let bounds := elfGetMemoryBounds elf.phdrs
    if isAligned bounds.1 pageSize then
      some
        { file := file
          beyond := beyond
          entryPoint := elf.entryPoint
          phdrs := elf.phdrs
          minVaddr := bounds.1
          maxVaddr := roundUp bounds.2 pageBits
          isRuntime := isRuntime }
    else
      none

/-- A file that passes all checks is accepted with the bounds of its headers. -/
theorem ELFFile.initialize_some {file : List Byte} {elf : ElfImage} (beyond : HostPtr)
    (isRuntime : Bool) (hlen : file.length ≠ 0) (helf : elfNewFile file = some elf)
    (hal : isAligned (elfGetMemoryBounds elf.phdrs).1 pageSize = true) :
    ELFFile.initialize file beyond isRuntime = some
      { file := file
        beyond := beyond
        entryPoint := elf.entryPoint
        phdrs := elf.phdrs
        minVaddr := (elfGetMemoryBounds elf.phdrs).1
        maxVaddr := roundUp (elfGetMemoryBounds elf.phdrs).2 pageBits
        isRuntime := isRuntime } := by
  rw [ ELFFile.initialize, if_neg hlen, helf]
  show (if isAligned (elfGetMemoryBounds elf.phdrs).1 pageSize = true then _ else _) = _
  rw [if_pos hal]

namespace ELFFile

def getTotalMemorySize (elf : ELFFile) : BitVec 64 := elf.maxVaddr - elf.minVaddr

/-- Byte `i` of the mapping. -/
def byteAt (elf : ELFFile) : HostPtr := fun i =>
  if h : i < elf.file.length then some elf.file[i] else elf.beyond (i - elf.file.length)

/-- `elf_getProgramSegment`: the segment's bytes in the mapping, or `NULL` when
its file range is not inside the file. -/
def getProgramSegment (elf : ELFFile) (ph : ElfPhdr) : HostPtr :=
  let segmentEnd := ph.pOffset + ph.pFilesz
  if elf.file.length < segmentEnd.toNat ∨ segmentEnd < ph.pOffset then HostPtr.null
  else HostPtr.add elf.byteAt ph.pOffset.toNat

end ELFFile

end KeystoneSdk
