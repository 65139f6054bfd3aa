/-
The loader functions as sequences of requests.

Which pages the loader asks for, and in which order, depends on the ELF files
and the parameters alone, never on the state of the page table: `allocPage`
answers every request in the same way.  So each function of the loader is the
run of a list of requests that is computed beforehand; a point where it never
comes back is a `stop` in that list.

* `epmAllocVspace_eq`, `loadSegment_eq`, `loadELF_eq`, `initStack_eq`,
  `loadUntrusted_eq` — the loader functions;
* `loadSequence_eq` — the whole load sequence.
-/
import KeystoneSdk.Replay

open ByteMemory StopM

namespace KeystoneSdk

/-! ### One call -/

/-- `allocPage` only ever reports success for the modes it knows. -/
theorem allocPage_valid (va : Vaddr) (l : FreeList) (src : HostPtr) {mode : BitVec 32}
    (hmode : (modeFlags mode).isSome) :
    allocPage va l src mode =
      (Request.alloc va l src mode).run >>= fun _ => pure .keystoneSuccess := by
  obtain ⟨flags, hf⟩ := Option.isSome_iff_exists.mp hmode
  have hat : ∀ r, allocAt l src mode r =
      allocAt l src mode r >>= fun _ => pure .keystoneSuccess := by
    intro r
    refine ext_exec fun s => ?_
    rw [exec_bind]
    cases r with
    | none => rfl
    | some pte =>
      by_cases h : readLE64 s.mem pte &&& pteV = 0#64
      · rw [exec_allocAt_empty l src h hf, copyInto]
        cases modeWrites mode with
        | false => rfl
        | true =>
          rw [writeMem]
          cases src.readable 4096 <;> rfl
      · rw [exec_allocAt_mapped l src mode h]
        rfl
  rw [Request.run, allocPage_eq, bind_assoc, bind_assoc]
  congr 1
  funext r
  exact hat r

/-- `__ept_walk_create` never returns `NULL`. -/
theorem eptWalkInternal_isSome (n : ℕ) (va : Vaddr) (s s' : Keystone) (r : Option Addr)
    (h : exec (eptWalkInternal n va true) s = (.ok r, s')) : r.isSome := by
  induction n generalizing s s' with
  | zero => cases h
  | succ n ih =>
    have hloop : ∀ i t, exec (eptWalkLoop va
        (fun pte => if true then eptContinueWalkCreate (eptWalkInternal n va true) pte
          else return none) i t) s = (.ok r, s') → r.isSome := by
      intro i
      induction i with
      | zero =>
        intro t ht
        cases ht
        rfl
      | succ i ihi =>
        intro t ht
        rw [exec_eptWalkLoop_succ] at ht
        split at ht
        · rw [if_pos rfl, exec_eptContinueWalkCreate] at ht
          exact ih _ _ ht
        · exact ihi _ ht
    rw [exec_eptWalkInternal_succ] at h
    exact hloop _ _ h

/-- The walks of `epm_alloc_vspace`. -/
def vspaceRequests : ℕ → Vaddr → List Request
  | 0, _ => []
  | n + 1, va => .walk va :: vspaceRequests n (va + pageSize)

theorem epmAllocVspaceLoop_eq (n : ℕ) (va : Vaddr) (count : ℕ) :
    epmAllocVspaceLoop n va count =
      runAll (vspaceRequests n va) >>= fun _ => pure (count + n) := by
  induction n generalizing va count with
  | zero => rfl
  | succ n ih =>
    rw [epmAllocVspaceLoop, vspaceRequests, runAll_cons, Request.run, bind_assoc, bind_assoc]
    refine ext_exec fun s => ?_
    rw [exec_bind, exec_bind]
    rcases hw : exec (eptWalkCreate va) s with ⟨r, s'⟩
    cases r with
    | error e => rfl
    | ok r =>
      obtain ⟨pte, rfl⟩ := Option.isSome_iff_exists.mp (eptWalkInternal_isSome 3 va s s' r hw)
      show exec (epmAllocVspaceLoop n (va + pageSize) (count + 1)) s' = _
      rw [ih, Nat.add_right_comm, Nat.add_assoc]
      rfl

theorem epmAllocVspace_eq (va : Vaddr) (numPages : BitVec 64) :
    epmAllocVspace va numPages =
      runAll (vspaceRequests numPages.toNat va) >>= fun _ => pure numPages.toNat := by
  rw [epmAllocVspace, epmAllocVspaceLoop_eq, Nat.zero_add]

/-! ### Segments -/

/-- What `loadFirstPage` asks for, and where it leaves `va` and `src`. -/
def firstPage (mode : BitVec 32) (va : Vaddr) (src : HostPtr) :
    List Request × Vaddr × HostPtr :=
  if isAligned va pageSize then ([], va, src)
  else
    let offset := (va - pageDown va).toNat
    let length := (pageUp va - va).toNat
    ( if src.readable length then
        [.alloc (pageDown va) .epm
          (HostPtr.ofBytes fun i =>
            if offset ≤ i ∧ i < offset + length then src.bytes (i - offset) else 0) mode]
      else [.stop .segfault],
      va + (pageUp va - va), src.add length )

/-- What `loadFullPages` asks for, and where it leaves `va` and `src`. -/
def fullPages (mode : BitVec 32) (fileEnd : Vaddr) :
    ℕ → Vaddr → HostPtr → List Request × Vaddr × HostPtr
  | 0, va, src => ([.stop .diverges], va, src)
  | n + 1, va, src =>
    if va + pageSize ≤ fileEnd then
      let rest := fullPages mode fileEnd n (va + pageSize) (src.add 4096)
      (.alloc va .epm src mode :: rest.1, rest.2)
    else ([], va, src)

/-- What `loadMixedPage` asks for, and where it leaves `va`. -/
def mixedPage (mode : BitVec 32) (fileEnd : Vaddr) (va : Vaddr) (src : HostPtr) :
    List Request × Vaddr :=
  if va < fileEnd then
    ( if src.readable (fileEnd - va).toNat then
        [.alloc va .epm
          (HostPtr.ofBytes fun i =>
            if 0 ≤ i ∧ i < 0 + (fileEnd - va).toNat then src.bytes (i - 0) else 0) mode]
      else [.stop .segfault],
      va + pageSize )
  else ([], va)

/-- What `loadBssPages` asks for. -/
def bssPages (mode : BitVec 32) (memoryEnd : Vaddr) : ℕ → Vaddr → List Request
  | 0, _ => [.stop .diverges]
  | n + 1, va =>
    if va < memoryEnd then .alloc va .epm nullpage mode :: bssPages mode memoryEnd n (va + pageSize)
    else []

/-- What `loadELF` asks for at a `PT_LOAD` header. -/
def segmentRequests (elf : ELFFile) (mode : BitVec 32) (ph : ElfPhdr) : List Request :=
  let fileEnd := ph.pVaddr + ph.pFilesz
  let memoryEnd := ph.pVaddr + ph.pMemsz
  let first := firstPage mode ph.pVaddr (elf.getProgramSegment ph)
  let full := fullPages mode fileEnd loopRounds first.2.1 first.2.2
  let mixed := mixedPage mode fileEnd full.2.1 full.2.2
  first.1 ++ full.1 ++ mixed.1 ++ bssPages mode memoryEnd loopRounds mixed.2

section Segments

variable {mode : BitVec 32}

/-- `copyToPage` reads its source, or never comes back. -/
theorem copyToPage_bind {α : Type} (offset length : ℕ) (src : HostPtr)
    (f : HostPtr → Loader α) :
    (copyToPage offset length src >>= f) =
      if src.readable length then
        f (HostPtr.ofBytes fun i =>
          if offset ≤ i ∧ i < offset + length then src.bytes (i - offset) else 0)
      else throw .segfault := by
  rw [copyToPage]
  cases src.readable length <;> rfl

theorem loadFirstPage_eq (hmode : (modeFlags mode).isSome) (va : Vaddr) (src : HostPtr) :
    loadFirstPage mode va src =
      runAll (firstPage mode va src).1 >>= fun _ =>
        pure (.keystoneSuccess, (firstPage mode va src).2) := by
  rw [loadFirstPage, firstPage]
  cases isAligned va pageSize with
  | true => rfl
  | false =>
    simp only [Bool.false_eq_true, if_false]
    rw [copyToPage_bind]
    cases src.readable (pageUp va - va).toNat with
    | false => rfl
    | true =>
      simp only [if_true, allocPage_valid _ _ _ hmode, runAll_cons, runAll_nil, bind_assoc,
        pure_bind]

theorem loadFullPages_eq (hmode : (modeFlags mode).isSome) (fileEnd : Vaddr) (n : ℕ)
    (va : Vaddr) (src : HostPtr) :
    loadFullPages mode fileEnd n va src =
      runAll (fullPages mode fileEnd n va src).1 >>= fun _ =>
        pure (.keystoneSuccess, (fullPages mode fileEnd n va src).2) := by
  induction n generalizing va src with
  | zero => rfl
  | succ n ih =>
    rw [loadFullPages, fullPages]
    split
    · rw [allocPage_valid _ _ _ hmode, runAll_cons]
      simp only [bind_assoc, pure_bind, ne_eq, not_true_eq_false, if_false, ih]
    · rfl

theorem loadMixedPage_eq (hmode : (modeFlags mode).isSome) (fileEnd va : Vaddr)
    (src : HostPtr) :
    loadMixedPage mode fileEnd va src =
      runAll (mixedPage mode fileEnd va src).1 >>= fun _ =>
        pure (.keystoneSuccess, (mixedPage mode fileEnd va src).2) := by
  rw [loadMixedPage, mixedPage]
  split
  · rw [copyToPage_bind]
    cases src.readable (fileEnd - va).toNat with
    | false => rfl
    | true =>
      simp only [if_true, allocPage_valid _ _ _ hmode, runAll_cons, runAll_nil, bind_assoc,
        pure_bind]
  · rfl

theorem loadBssPages_eq (hmode : (modeFlags mode).isSome) (memoryEnd : Vaddr) (n : ℕ)
    (va : Vaddr) :
    loadBssPages mode memoryEnd n va =
      runAll (bssPages mode memoryEnd n va) >>= fun _ => pure .keystoneSuccess := by
  induction n generalizing va with
  | zero => rfl
  | succ n ih =>
    rw [loadBssPages, bssPages]
    split
    · rw [allocPage_valid _ _ _ hmode, runAll_cons]
      simp only [bind_assoc, pure_bind, ne_eq, not_true_eq_false, if_false, ih]
    · rfl

/-- The four stages of a segment, one after the other. -/
theorem loadSegment_eq (elf : ELFFile) (hmode : (modeFlags mode).isSome) (ph : ElfPhdr) :
    loadSegment elf mode ph =
      runAll (segmentRequests elf mode ph) >>= fun _ => pure .keystoneSuccess := by
  rw [loadSegment, segmentRequests, loadFirstPage_eq hmode]
  simp only [runAll_append, bind_assoc, pure_bind, ne_eq, not_true_eq_false, if_false,
    loadFullPages_eq hmode, loadMixedPage_eq hmode, loadBssPages_eq hmode]

/-- The requests of all `PT_LOAD` headers, in the order of the headers. -/
def segmentsRequests (elf : ELFFile) (mode : BitVec 32) (phs : List ElfPhdr) : List Request :=
  (phs.filter fun ph => ph.pType = ptLoad).flatMap (segmentRequests elf mode)

theorem loadSegments_eq (elf : ELFFile) (hmode : (modeFlags mode).isSome) (phs : List ElfPhdr) :
    loadSegments elf mode phs =
      runAll (segmentsRequests elf mode phs) >>= fun _ => pure .keystoneSuccess := by
  induction phs with
  | nil => rfl
  | cons ph phs ih =>
    rw [loadSegments, segmentsRequests]
    by_cases hp : ph.pType = ptLoad
    · rw [if_neg (not_not.mpr hp), List.filter_cons_of_pos (by simpa using hp), List.flatMap_cons,
        runAll_append, loadSegment_eq elf hmode]
      simp only [bind_assoc, pure_bind, ne_eq, not_true_eq_false, if_false, ih]
      rfl
    · rw [if_pos hp, List.filter_cons_of_neg (by simpa using hp), ih]
      rfl

end Segments

/-! ### The four producers -/

theorem ELFFile.getPageMode_valid (elf : ELFFile) : (modeFlags elf.getPageMode).isSome := by
  rw [ELFFile.getPageMode]
  split <;> decide

namespace ELFFile

/-- How many pages `loadELF` reserves page tables for. -/
def vspacePages (elf : ELFFile) : ℕ :=
  (roundDown elf.getTotalMemorySize pageBits / pageSize).toNat

/-- What `loadELF` asks for before it sets `*data_start`. -/
def tableRequests (elf : ELFFile) : List Request := vspaceRequests elf.vspacePages elf.minVaddr

/-- What `loadELF` asks for after it set `*data_start`. -/
def dataRequests (elf : ELFFile) : List Request :=
  segmentsRequests elf elf.getPageMode elf.phdrs

end ELFFile

/-- **`loadELF`** reserves the page tables, reads the free list, and loads the
segments. -/
theorem loadELF_eq (elf : ELFFile) (dataStart : Vaddr) :
    loadELF elf dataStart =
      runAll elf.tableRequests >>= fun _ => get >>= fun s =>
        runAll elf.dataRequests >>= fun _ => pure (.keystoneSuccess, s.epmFreeList) := by
  rw [loadELF, epmAllocVspace_eq, loadSegments_eq elf elf.getPageMode_valid]
  simp only [bind_assoc, pure_bind, ne_eq, not_true_eq_false, if_false]
  rfl

/-- What reserving the page tables of an image makes of an address space. -/
def ELFFile.tables (elf : ELFFile) (a : AddressSpace) : AddressSpace :=
  (exec (forM elf.tableRequests Request.apply) a).2

/-- What loading an image makes of an address space, and whether it returns. -/
def ELFFile.loaded (elf : ELFFile) (a : AddressSpace) : Except Stop PUnit × AddressSpace :=
  exec (forM elf.dataRequests Request.apply) (elf.tables a)

/-- What `initStack` asks for. -/
def stackLoopRequests (isRt : Bool) : ℕ → Vaddr → List Request
  | 0, _ => []
  | n + 1, va =>
    .alloc va .epm nullpage (if isRt then rtNoexec else userNoexec) ::
      stackLoopRequests isRt n (va + pageSize)

theorem initStackLoop_eq (isRt : Bool) (n : ℕ) (va : Vaddr) :
    initStackLoop isRt n va =
      runAll (stackLoopRequests isRt n va) >>= fun _ => pure .keystoneSuccess := by
  have hmode : (modeFlags (if isRt then rtNoexec else userNoexec)).isSome := by
    cases isRt <;> decide
  induction n generalizing va with
  | zero => rfl
  | succ n ih =>
    rw [initStackLoop, stackLoopRequests, allocPage_valid _ _ _ hmode, runAll_cons]
    simp only [bind_assoc, pure_bind, reduceCtorEq, if_false, ih]

/-- What `initStack` asks for. -/
def stackRequests (start : Vaddr) (size : BitVec 64) (isRt : Bool) : List Request :=
  let highAddr := roundUp start pageBits
  let vaStartStk := roundDown (highAddr - size) pageBits
  let stkPages : BitVec 32 := ((highAddr - vaStartStk) / pageSize).setWidth 32
  stackLoopRequests isRt stkPages.toInt.toNat vaStartStk

theorem initStack_eq (start : Vaddr) (size : BitVec 64) (isRt : Bool) :
    initStack start size isRt =
      runAll (stackRequests start size isRt) >>= fun _ => pure .keystoneSuccess :=
  initStackLoop_eq isRt _ _

def untrustedLoopRequests (vaEnd : Vaddr) : ℕ → Vaddr → List Request
  | 0, _ => [.stop .diverges]
  | n + 1, va =>
    if va < vaEnd then
      .alloc va .utm nullpage utmFull :: untrustedLoopRequests vaEnd n (va + pageSize)
    else []

theorem loadUntrustedLoop_eq (vaEnd : Vaddr) (n : ℕ) (va : Vaddr) :
    loadUntrustedLoop vaEnd n va = runAll (untrustedLoopRequests vaEnd n va) := by
  induction n generalizing va with
  | zero => rfl
  | succ n ih =>
    rw [loadUntrustedLoop, untrustedLoopRequests]
    split
    · rw [allocPage_valid _ _ _ (by decide), runAll_cons]
      simp only [bind_assoc, pure_bind, ih]
    · rfl

/-- What `loadUntrusted` asks for. -/
def untrustedRequests (start size : BitVec 64) : List Request :=
  untrustedLoopRequests (roundUp (start + size) pageBits) loopRounds (roundDown start pageBits)

theorem loadUntrusted_eq :
    loadUntrusted = get >>= fun s =>
      runAll (untrustedRequests s.untrustedStart s.untrustedSize) >>= fun _ =>
        pure .keystoneSuccess := by
  rw [loadUntrusted]
  simp only [loadUntrustedLoop_eq]
  rfl

/-- **The load sequence**: four producers, none of which ever reports an
error. -/
theorem loadSequence_eq (runtimeFile enclaveFile : ELFFile) (dataStart : Vaddr) :
    loadSequence runtimeFile enclaveFile dataStart =
      runAll runtimeFile.tableRequests >>= fun _ => get >>= fun s₁ =>
      runAll runtimeFile.dataRequests >>= fun _ =>
      runAll enclaveFile.tableRequests >>= fun _ => get >>= fun s₂ =>
      runAll enclaveFile.dataRequests >>= fun _ =>
      runAll (stackRequests defaultStackStart defaultStackSize false) >>= fun _ =>
      get >>= fun s₃ => runAll (untrustedRequests s₃.untrustedStart s₃.untrustedSize) >>= fun _ =>
      pure ⟨.keystoneSuccess, s₁.epmFreeList, s₂.epmFreeList⟩ := by
  rw [loadSequence, loadELF_eq, initStack_eq, loadUntrusted_eq]
  simp only [bind_assoc, pure_bind, ne_eq, not_true_eq_false, if_false, loadELF_eq]

/-! ### All of them are valid -/

section Valid

variable {mode : BitVec 32}

theorem vspaceRequests_valid (n : ℕ) (va : Vaddr) : ∀ r ∈ vspaceRequests n va, r.Valid := by
  induction n generalizing va with
  | zero => rintro r ⟨⟩
  | succ n ih =>
    rintro r (_ | ⟨_, hr⟩)
    · trivial
    · exact ih _ r hr

theorem vspaceRequests_returns (n : ℕ) (va : Vaddr) : ∀ r ∈ vspaceRequests n va, r.Returns := by
  induction n generalizing va with
  | zero => rintro r ⟨⟩
  | succ n ih =>
    rintro r (_ | ⟨_, hr⟩)
    · trivial
    · exact ih _ r hr

/-- Reserving page tables maps nothing. -/
theorem vspaceRequests_content (n : ℕ) (va : Vaddr) (v : ℕ) :
    ∀ r ∈ vspaceRequests n va, r.content v = none := by
  induction n generalizing va with
  | zero => rintro r ⟨⟩
  | succ n ih =>
    rintro r (_ | ⟨_, hr⟩)
    · rfl
    · exact ih _ r hr

theorem firstPage_valid (hmode : (modeFlags mode).isSome) (va : Vaddr) (src : HostPtr) :
    ∀ r ∈ (firstPage mode va src).1, r.Valid := by
  intro r hr
  rw [firstPage] at hr
  split at hr
  · cases hr
  · simp only at hr
    split at hr <;> (rw [List.mem_singleton] at hr; subst hr)
    · exact hmode
    · trivial

theorem fullPages_valid (hmode : (modeFlags mode).isSome) (fileEnd : Vaddr) (n : ℕ)
    (va : Vaddr) (src : HostPtr) : ∀ r ∈ (fullPages mode fileEnd n va src).1, r.Valid := by
  induction n generalizing va src with
  | zero =>
    intro r hr
    rw [fullPages, List.mem_singleton] at hr
    subst hr
    trivial
  | succ n ih =>
    intro r hr
    rw [fullPages] at hr
    split at hr
    · rcases List.mem_cons.mp hr with rfl | hr
      · exact hmode
      · exact ih _ _ r hr
    · cases hr

theorem mixedPage_valid (hmode : (modeFlags mode).isSome) (fileEnd va : Vaddr) (src : HostPtr) :
    ∀ r ∈ (mixedPage mode fileEnd va src).1, r.Valid := by
  intro r hr
  rw [mixedPage] at hr
  split at hr
  · simp only at hr
    split at hr <;> (rw [List.mem_singleton] at hr; subst hr)
    · exact hmode
    · trivial
  · cases hr

theorem bssPages_valid (hmode : (modeFlags mode).isSome) (memoryEnd : Vaddr) (n : ℕ)
    (va : Vaddr) : ∀ r ∈ bssPages mode memoryEnd n va, r.Valid := by
  induction n generalizing va with
  | zero =>
    intro r hr
    rw [bssPages, List.mem_singleton] at hr
    subst hr
    trivial
  | succ n ih =>
    intro r hr
    rw [bssPages] at hr
    split at hr
    · rcases List.mem_cons.mp hr with rfl | hr
      · exact hmode
      · exact ih _ r hr
    · cases hr

theorem segmentsRequests_valid (elf : ELFFile) (hmode : (modeFlags mode).isSome)
    (phs : List ElfPhdr) : ∀ r ∈ segmentsRequests elf mode phs, r.Valid := by
  intro r hr
  obtain ⟨ph, _, hr⟩ := List.mem_flatMap.mp hr
  simp only [segmentRequests, List.mem_append] at hr
  rcases hr with ((hr | hr) | hr) | hr
  · exact firstPage_valid hmode _ _ r hr
  · exact fullPages_valid hmode _ _ _ _ r hr
  · exact mixedPage_valid hmode _ _ _ r hr
  · exact bssPages_valid hmode _ _ _ r hr

theorem ELFFile.tableRequests_valid (elf : ELFFile) : ∀ r ∈ elf.tableRequests, r.Valid :=
  vspaceRequests_valid _ _

theorem ELFFile.dataRequests_valid (elf : ELFFile) : ∀ r ∈ elf.dataRequests, r.Valid :=
  segmentsRequests_valid elf elf.getPageMode_valid _

theorem stackLoopRequests_valid (isRt : Bool) (n : ℕ) (va : Vaddr) :
    ∀ r ∈ stackLoopRequests isRt n va, r.Valid := by
  induction n generalizing va with
  | zero => rintro r ⟨⟩
  | succ n ih =>
    rintro r (_ | ⟨_, hr⟩)
    · show (modeFlags (if isRt then rtNoexec else userNoexec)).isSome
      cases isRt <;> decide
    · exact ih _ r hr

theorem untrustedLoopRequests_valid (vaEnd : Vaddr) (n : ℕ) (va : Vaddr) :
    ∀ r ∈ untrustedLoopRequests vaEnd n va, r.Valid := by
  induction n generalizing va with
  | zero =>
    intro r hr
    rw [untrustedLoopRequests, List.mem_singleton] at hr
    subst hr
    trivial
  | succ n ih =>
    intro r hr
    rw [untrustedLoopRequests] at hr
    split at hr
    · rcases List.mem_cons.mp hr with rfl | hr
      · show (modeFlags utmFull).isSome
        decide
      · exact ih _ r hr
    · cases hr

end Valid

/-! ### Represented runs -/

section Represented

variable {L : Layout} {s : Keystone} {a : AddressSpace}

/-- A run that ends inside the buffers was inside all along. -/
theorem InBuffers.before {s s' : Keystone} (h : InBuffers L s') (hg : LogsGrow s s') :
    InBuffers L s :=
  ⟨fun p hp => h.epm p (hg.1.subset hp), fun p hp => h.utm p (hg.2.subset hp)⟩

theorem grows_runAll (rs : List Request) : Grows LogsGrow (runAll rs) :=
  Grows.forM LogsGrow.refl LogsGrow.trans Request.grows rs

theorem ELFFile.tables_returns (elf : ELFFile) (a : AddressSpace) :
    exec (forM elf.tableRequests Request.apply) a = (.ok ⟨⟩, elf.tables a) :=
  Prod.ext (AddressSpace.run_returns elf.tableRequests_valid (vspaceRequests_returns _ _) a) rfl

@[simp] theorem ELFFile.tables_leaf_none (elf : ELFFile) {v : ℕ} (h : a.leaf v = none) :
    (elf.tables a).leaf v = none :=
  AddressSpace.run_leaf_none elf.tableRequests_valid (vspaceRequests_content _ _ v) h

theorem ELFFile.tables_leaf_mono (elf : ELFFile) {v : ℕ} {lf : Leaf} (h : a.leaf v = some lf) :
    (elf.tables a).leaf v = some lf :=
  AddressSpace.run_leaf_mono elf.tableRequests_valid h

/-- `loadELF` in a represented address space: how it ends, with what
`*data_start`, and what it leaves behind. -/
theorem loadELF_represents (hr : Repr L s a) (elf : ELFFile) (dataStart : Vaddr)
    (hin : InBuffers L (exec (loadELF elf dataStart) s).2) :
    (exec (loadELF elf dataStart) s).1 = ((elf.loaded a).1.map fun _ =>
        (.keystoneSuccess, frameAddr (L.epmFrame + (elf.tables a).epmUsed) 0)) ∧
      Repr L (exec (loadELF elf dataStart) s).2 (elf.loaded a).2 := by
  -- the reservation, then the segments
  have hin₁ : InBuffers L (exec (runAll elf.tableRequests) s).2 := by
    refine hin.before ?_
    rw [loadELF_eq]
    refine Grows.after LogsGrow.refl _ (fun _ => ?_) s
    refine (grows_get LogsGrow.refl).bind LogsGrow.trans fun s' => ?_
    exact (grows_runAll _).bind LogsGrow.trans fun _ => grows_pure LogsGrow.refl _
  obtain ⟨h1, hr₁⟩ := run_represents hr elf.tableRequests_valid hin₁
  rw [elf.tables_returns] at h1 hr₁
  have hrun : exec (loadELF elf dataStart) s =
      exec (runAll elf.dataRequests >>= fun _ =>
        pure (.keystoneSuccess, (exec (runAll elf.tableRequests) s).2.epmFreeList))
        (exec (runAll elf.tableRequests) s).2 := by
    rw [loadELF_eq, exec_bind_ok (Prod.ext h1 rfl), exec_bind, exec_get]
  rw [hrun] at hin ⊢
  have hin₂ := hin.before (Grows.after LogsGrow.refl (runAll elf.dataRequests)
    (fun _ => grows_pure LogsGrow.refl _) (exec (runAll elf.tableRequests) s).2)
  obtain ⟨h2, hr₂⟩ := run_represents hr₁ elf.dataRequests_valid hin₂
  have hfree : (exec (runAll elf.tableRequests) s).2.epmFreeList =
      frameAddr (L.epmFrame + (elf.tables a).epmUsed) 0 := hr₁.epmFree
  rw [exec_bind, hfree]
  unfold ELFFile.loaded
  rcases hx : exec (runAll elf.dataRequests) (exec (runAll elf.tableRequests) s).2 with ⟨r, s'⟩
  rw [hx] at h2 hr₂
  change r = _ at h2
  rw [← h2]
  cases r with
  | error e => exact ⟨rfl, hr₂⟩
  | ok u => exact ⟨rfl, hr₂⟩

end Represented

end KeystoneSdk
