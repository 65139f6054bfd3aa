/-
What `loadELF` does with a file whose headers lie.

`ELFFile::initialize` checks the header tables of a file, not its segments.  A
hostile image is handled safely when the loader reads the file only where it has
bytes, maps only pages inside the bounds of the image, and rejects an image with
a malformed segment.

* `Asks` — the pages a list of requests gets to;
* `NeverFaults` — computations that end in no segmentation fault, whatever the
  memory holds;
* `HandledSafely.maps_inside` — what the run of a safely handled image maps;
* `SafeSegment.request` — what is asked for at the pages of a safe segment;
* **`loadELF_safe_iff`** — which images are handled safely.
-/
import KeystoneSdk.LoadedImage

open ByteMemory StopM

namespace KeystoneSdk

/-! ### Handling an image safely -/

/-- The requests get to a call of `allocPage` for the page at `va`. -/
def Asks (rs : List Request) (va : Vaddr) : Prop :=
  ∃ before after l src mode, rs = before ++ .alloc va l src mode :: after ∧
    ∀ reason, Request.stop reason ∉ before

/-- The image, when nothing outside its file can be read. -/
def ELFFile.nothingBeyond (elf : ELFFile) : ELFFile := { elf with beyond := HostPtr.null }

/-- `loadELF` handles the image safely in the state `s`. -/
structure HandledSafely (elf : ELFFile) (s : Keystone) (dataStart : Vaddr) : Prop where
  /-- It reads the file only where the file has bytes: nothing faults when
  nothing else can be read. -/
  reads : (exec (loadELF elf.nothingBeyond dataStart) s).1 ≠ .error .segfault
  /-- Every page it calls `allocPage` for lies inside the bounds of the image. -/
  maps : ∀ va, Asks elf.dataRequests va →
    elf.minVaddr.toNat ≤ va.toNat ∧ va.toNat + 4096 ≤ elf.maxVaddr.toNat
  /-- It rejects an image with a segment whose file range is not inside the
  file, with more file data than memory, or that wraps. -/
  rejects : (∃ ph ∈ elf.loads, ¬ ph.Segment elf.file) →
    reports (loadELF elf dataStart) s .keystoneError

/-- A `PT_LOAD` header that can be loaded safely. -/
structure SafeSegment (elf : ELFFile) (ph : ElfPhdr) : Prop where
  segment : ph.Segment elf.file
  /-- The file has bytes for the rest of a misaligned first page. -/
  first_in_file : ph.pageOffset ≠ 0 →
    ph.pOffset.toNat + (4096 - ph.pageOffset) ≤ elf.file.length
  /-- Neither the file data nor the first page reaches the last page of the
  address space. -/
  file_below : ph.pVaddr.toNat + ph.pFilesz.toNat + 4096 < 18446744073709551616
  first_below : ph.pageOffset ≠ 0 → ph.startPage ≠ 4503599627370494
  /-- The bounds have not wrapped. -/
  bounded : ph.pMemsz.toNat ≠ 0 → elf.maxVaddr.toNat ≠ 0
  /-- An empty segment counts for the bounds only if it lies in them. -/
  empty : ph.pMemsz.toNat = 0 → ph.pageOffset ≠ 0 →
    elf.minVaddr.toNat ≤ ph.pVaddr.toNat ∧ ph.pVaddr.toNat < elf.maxVaddr.toNat

def SafeImage (elf : ELFFile) : Prop := ∀ ph ∈ elf.loads, SafeSegment elf ph

/-! ### No fault -/

/-- No run of the computation ends in a segmentation fault. -/
def NeverFaults {α : Type} (m : Loader α) : Prop := ∀ s, (exec m s).1 ≠ .error .segfault

section NeverFaults

variable {α β : Type}

theorem NeverFaults.pure (x : α) : NeverFaults (pure x : Loader α) := by
  rintro s ⟨⟩

theorem NeverFaults.get : NeverFaults (get : Loader Keystone) := by
  rintro s ⟨⟩

theorem NeverFaults.modify (f : Keystone → Keystone) :
    NeverFaults (modify f : Loader PUnit) := by
  rintro s ⟨⟩

/-- What comes behind a computation need not fault on the values it returns. -/
theorem NeverFaults.bind_of {m : Loader α} {f : α → Loader β} (hm : NeverFaults m)
    (hf : ∀ s x s', exec m s = (.ok x, s') → (exec (f x) s').1 ≠ .error .segfault) :
    NeverFaults (m >>= f) := by
  intro s
  have hs := hm s
  rw [exec_bind]
  rcases hx : exec m s with ⟨r, s'⟩
  rw [hx] at hs
  cases r with
  | error e =>
    intro he
    cases he
    exact hs rfl
  | ok x => exact hf s x s' hx

theorem NeverFaults.bind {m : Loader α} {f : α → Loader β} (hm : NeverFaults m)
    (hf : ∀ x, NeverFaults (f x)) : NeverFaults (m >>= f) :=
  hm.bind_of fun _ x s' _ => hf x s'

theorem neverFaults_eptWalkLoop (va : Vaddr) {missing : Addr → Loader (Option Addr)}
    (hm : ∀ pte, NeverFaults (missing pte)) (i : ℕ) (t : Addr) :
    NeverFaults (eptWalkLoop va missing i t) := by
  induction i generalizing t with
  | zero => exact NeverFaults.pure _
  | succ i ih =>
    rw [eptWalkLoop]
    refine NeverFaults.bind (NeverFaults.get.bind fun _ => NeverFaults.pure _) fun v => ?_
    split
    · exact hm _
    · exact ih _

theorem neverFaults_eptWalkInternal (n : ℕ) (va : Vaddr) :
    NeverFaults (eptWalkInternal n va true) := by
  induction n with
  | zero => rintro s ⟨⟩
  | succ n ih =>
    rw [eptWalkInternal]
    refine NeverFaults.get.bind fun s => neverFaults_eptWalkLoop va (fun pte => ?_) _ _
    refine NeverFaults.get.bind fun s => ?_
    refine (NeverFaults.modify _).bind fun _ => ?_
    exact (NeverFaults.modify _).bind fun _ => ih

/-- `allocPage` faults only on a source page that it cannot read. -/
theorem neverFaults_allocPage (va : Vaddr) (l : FreeList) {src : HostPtr} {mode : BitVec 32}
    (hsrc : modeWrites mode = true → src.readable 4096 = true) :
    NeverFaults (allocPage va l src mode) := by
  rw [allocPage_eq]
  refine (neverFaults_eptWalkInternal 3 va).bind_of fun s r s' hs => ?_
  obtain ⟨pte, rfl⟩ := Option.isSome_iff_exists.mp (eptWalkInternal_isSome 3 va s s' r hs)
  revert s'
  suffices h : NeverFaults (allocAt l src mode (some pte)) from fun s' _ => h s'
  refine NeverFaults.bind (NeverFaults.get.bind fun _ => NeverFaults.pure _) fun v => ?_
  split
  · exact NeverFaults.pure _
  · refine NeverFaults.get.bind fun s => (NeverFaults.modify _).bind fun _ => ?_
    cases modeFlags mode with
    | none => exact NeverFaults.pure _
    | some flags =>
      refine (NeverFaults.modify _).bind fun _ => ?_
      rw [copyInto]
      cases hw : modeWrites mode with
      | false => exact NeverFaults.pure _
      | true =>
        rw [if_pos rfl, writeMem, if_pos (hsrc hw)]
        exact (NeverFaults.modify _).bind fun _ => NeverFaults.pure _

theorem Request.neverFaults {r : Request} (hr : r.Returns) : NeverFaults r.run := by
  cases r with
  | walk va => exact (neverFaults_eptWalkInternal 3 va).bind fun _ => NeverFaults.pure _
  | alloc va l src mode => exact (neverFaults_allocPage va l hr).bind fun _ => NeverFaults.pure _
  | stop reason => exact hr.elim

theorem neverFaults_runAll {rs : List Request} (hr : ∀ r ∈ rs, r.Returns) :
    NeverFaults (runAll rs) := by
  induction rs with
  | nil => exact NeverFaults.pure _
  | cons r rs ih =>
    rw [runAll_cons]
    refine (Request.neverFaults (hr r (List.mem_cons_self ..))).bind fun _ => ?_
    exact ih fun r' hr' => hr r' (List.mem_cons_of_mem _ hr')

end NeverFaults

/-! ### Bounds of an image -/

/-- What the bounds of an accepted image are bounds of. -/
structure BoundsHold (elf : ELFFile) : Prop where
  min_aligned : elf.minVaddr.toNat % 4096 = 0
  max_aligned : elf.maxVaddr.toNat % 4096 = 0
  min_le : ∀ ph ∈ elf.phdrs, ph.pMemsz.toNat ≠ 0 → elf.minVaddr.toNat ≤ ph.pVaddr.toNat
  le_max : ∀ ph ∈ elf.phdrs, ph.pMemsz.toNat ≠ 0 → elf.maxVaddr.toNat ≠ 0 →
    (ph.pVaddr + ph.pMemsz).toNat ≤ elf.maxVaddr.toNat

/-- The bounds only widen. -/
theorem memoryBoundsStep_mono (b : Vaddr × Vaddr) (ph : ElfPhdr) :
    (memoryBoundsStep b ph).1.toNat ≤ b.1.toNat ∧
      b.2.toNat ≤ (memoryBoundsStep b ph).2.toNat := by
  rw [memoryBoundsStep]
  split
  · exact ⟨le_refl _, le_refl _⟩
  · simp only
    constructor
    · split
      · rename_i h
        exact Nat.le_of_lt h
      · exact le_refl _
    · split
      · rename_i h
        exact Nat.le_of_lt h
      · exact le_refl _

theorem memoryBounds_mono (phs : List ElfPhdr) (b : Vaddr × Vaddr) :
    (phs.foldl memoryBoundsStep b).1.toNat ≤ b.1.toNat ∧
      b.2.toNat ≤ (phs.foldl memoryBoundsStep b).2.toNat := by
  induction phs generalizing b with
  | nil => exact ⟨le_refl _, le_refl _⟩
  | cons ph phs ih =>
    obtain ⟨h1, h2⟩ := ih (memoryBoundsStep b ph)
    obtain ⟨h3, h4⟩ := memoryBoundsStep_mono b ph
    exact ⟨h1.trans h3, h4.trans h2⟩

/-- Every header with memory lies between them. -/
theorem memoryBounds_cover {phs : List ElfPhdr} (b : Vaddr × Vaddr) {ph : ElfPhdr}
    (hph : ph ∈ phs) (hmem : ph.pMemsz.toNat ≠ 0) :
    (phs.foldl memoryBoundsStep b).1.toNat ≤ ph.pVaddr.toNat ∧
      (ph.pVaddr + ph.pMemsz).toNat ≤ (phs.foldl memoryBoundsStep b).2.toNat := by
  induction phs generalizing b with
  | nil => cases hph
  | cons ph' phs ih =>
    rcases List.mem_cons.mp hph with rfl | hph
    · obtain ⟨h1, h2⟩ := memoryBounds_mono phs (memoryBoundsStep b ph)
      have hne : ph.pMemsz ≠ 0#64 := fun h0 => hmem (by rw [h0]; rfl)
      refine ⟨h1.trans ?_, le_trans ?_ h2⟩
      · rw [memoryBoundsStep, if_neg hne]
        simp only
        split
        · exact le_refl _
        · rename_i h
          exact Nat.le_of_not_lt h
      · rw [memoryBoundsStep, if_neg hne]
        simp only
        split
        · exact le_refl _
        · rename_i h
          exact Nat.le_of_not_lt h
    · exact ih _ hph

theorem boundsHold_of_initialize {file : List Byte} {beyond : HostPtr} {isRuntime : Bool}
    {elf : ELFFile} (h : ELFFile.initialize file beyond isRuntime = some elf) :
    BoundsHold elf := by
  rw [ ELFFile.initialize] at h
  split at h
  · cases h
  · obtain ⟨img, himg, h⟩ := Option.bind_eq_some_iff.mp h
    dsimp only at h
    split at h
    · rename_i hal
      cases h
      have hmax := fun x => roundUp_toNat x
      refine ⟨(isAligned_iff _).mp hal, ?_, ?_, ?_⟩
      · rw [hmax]
        omega
      · intro ph hph hmem
        exact (memoryBounds_cover _ hph hmem).1
      · intro ph hph hmem hne
        have hle := (memoryBounds_cover (BitVec.allOnes 64, 0#64) hph hmem).2
        have hlt := (img.phdrs.foldl memoryBoundsStep (BitVec.allOnes 64, 0#64)).2.isLt
        rw [hmax] at hne ⊢
        change ph ∈ img.phdrs at hph
        change _ ≤ (elfGetMemoryBounds img.phdrs).2.toNat at hle
        change (elfGetMemoryBounds img.phdrs).2.toNat < _ at hlt
        omega
    · cases h

/-! ### Safe segments -/

section Safe

variable {elf : ELFFile} {ph : ElfPhdr}

/-- The loader can read what the file has behind the start of a segment. -/
theorem segment_readable_file (h : ph.InFile elf.file) {n : ℕ}
    (hn : ph.pOffset.toNat + n ≤ elf.file.length) :
    (elf.getProgramSegment ph).readable n = true := by
  refine HostPtr.readable_iff.mpr fun i hi => ?_
  rw [getProgramSegment_inFile h, HostPtr.add, ELFFile.byteAt, dif_pos (by omega)]
  rfl

theorem SafeSegment.fileSpan (h : SafeSegment elf ph) : ph.fileSpan = ph.pFilesz.toNat :=
  if_neg fun hc => h.first_below hc.1 hc.2

/-- Where the pages of a safe segment lie. -/
theorem SafeSegment.pages (h : SafeSegment elf ph) (hb : BoundsHold elf) (hph : ph ∈ elf.phdrs)
    {i : ℕ} (hi : i < ph.pageCount) :
    elf.minVaddr.toNat ≤ 4096 * (ph.startPage + i) ∧
      4096 * (ph.startPage + i) + 4096 ≤ elf.maxVaddr.toNat := by
  have hsize := h.segment.size
  have hwrap := h.segment.no_wrap
  have hv := ph.pVaddr_eq
  have hoff := ph.pageOffset_lt
  have hmin := hb.min_aligned
  have hmax := hb.max_aligned
  have hmaxlt := elf.maxVaddr.isLt
  rw [ElfPhdr.pageCount, h.fileSpan, max_eq_right hsize] at hi
  rcases Nat.eq_zero_or_pos ph.pMemsz.toNat with h0 | hpos
  · -- only a misaligned empty segment has a page
    obtain ⟨h1, h2⟩ := h.empty h0 (by omega)
    omega
  · have h1 := hb.min_le ph hph (by omega)
    have h2 := hb.le_max ph hph (by omega) (h.bounded (by omega))
    rw [BitVec.toNat_add, Nat.mod_eq_of_lt hwrap] at h2
    omega

theorem SafeSegment.ends (h : SafeSegment elf ph) (hb : BoundsHold elf) (hph : ph ∈ elf.phdrs) :
    ph.Ends := by
  refine ⟨h.file_below, ?_⟩
  have hsize := h.segment.size
  have hwrap := h.segment.no_wrap
  have hfile := h.file_below
  have hmax := hb.max_aligned
  have hmaxlt := elf.maxVaddr.isLt
  rcases Nat.eq_zero_or_pos ph.pMemsz.toNat with h0 | hpos
  · omega
  · have h2 := hb.le_max ph hph (by omega) (h.bounded (by omega))
    rw [BitVec.toNat_add, Nat.mod_eq_of_lt hwrap] at h2
    omega

/-- **What is asked for at a page of a safe segment**: a page, with a source that
can be read. -/
theorem SafeSegment.request (h : SafeSegment elf ph) (i : ℕ) :
    ∃ src, elf.requestFor (ph, i) =
        .alloc (frameAddr (ph.startPage + i) 0) .epm src elf.getPageMode ∧
      src.readable 4096 = true := by
  have hin := h.segment.inFile
  have hoff := ph.pageOffset_lt
  refine ⟨pageSource (elf.getProgramSegment ph) ph.pageOffset ph.fileSpan i, ?_, ?_⟩
  · refine if_pos ?_
    show ((elf.getProgramSegment ph).add (pageCopy ph.pageOffset ph.fileSpan i).1).readable
      (pageCopy ph.pageOffset ph.fileSpan i).2 = true
    rw [pageCopy, h.fileSpan]
    split
    · rename_i hfirst
      rw [HostPtr.add_zero]
      exact segment_readable_file hin (h.first_in_file hfirst.1)
    · split
      · rfl
      · rename_i hnot hpart
        show HostPtr.readable _ (ph.pageOffset + ph.pFilesz.toNat - 4096 * i) = true
        rcases Nat.lt_or_ge (4096 * i) (ph.pageOffset + ph.pFilesz.toNat) with hlt | hge
        · exact segment_readable hin (by omega)
        · rw [Nat.sub_eq_zero_of_le hge]
          rfl
  · rw [pageSource, h.fileSpan]
    split
    · exact HostPtr.readable_ofBytes _ _
    · split
      · exact segment_readable hin (by omega)
      · split
        · exact HostPtr.readable_ofBytes _ _
        · exact HostPtr.readable_ofBytes _ _

/-- The requests of a safe segment. -/
theorem SafeSegment.requests (h : SafeSegment elf ph) (he : ph.Ends) {r : Request}
    (hr : r ∈ segmentRequests elf elf.getPageMode ph) :
    ∃ i src, i < ph.pageCount ∧
      r = .alloc (frameAddr (ph.startPage + i) 0) .epm src elf.getPageMode ∧
      src.readable 4096 = true := by
  rw [segmentRequests_eq elf he] at hr
  obtain ⟨i, hi, rfl⟩ := List.mem_map.mp hr
  obtain ⟨src, hsrc, hread⟩ := h.request i
  exact ⟨i, src, List.mem_range.mp hi, hsrc, hread⟩

theorem mem_loads (hph : ph ∈ elf.loads) : ph ∈ elf.phdrs := List.mem_of_mem_filter hph

/-- The requests of a safe image. -/
theorem SafeImage.requests (h : SafeImage elf) (hb : BoundsHold elf) {r : Request}
    (hr : r ∈ elf.dataRequests) :
    ∃ ph ∈ elf.loads, ∃ i src, i < ph.pageCount ∧
      r = .alloc (frameAddr (ph.startPage + i) 0) .epm src elf.getPageMode ∧
      src.readable 4096 = true := by
  obtain ⟨ph, hph, hr⟩ := List.mem_flatMap.mp hr
  exact ⟨ph, hph, (h ph hph).requests ((h ph hph).ends hb (mem_loads hph)) hr⟩

/-- The run of `loadELF`, as far as faults go. -/
theorem neverFaults_loadELF (dataStart : Vaddr) (h : ∀ r ∈ elf.dataRequests, r.Returns) :
    NeverFaults (loadELF elf dataStart) := by
  rw [loadELF_eq]
  refine (neverFaults_runAll (vspaceRequests_returns _ _)).bind fun _ => ?_
  refine NeverFaults.get.bind fun s => ?_
  exact (neverFaults_runAll h).bind fun _ => NeverFaults.pure _

theorem SafeImage.nothingBeyond (h : SafeImage elf) : SafeImage elf.nothingBeyond :=
  fun ph hph => ⟨(h ph hph).segment, (h ph hph).first_in_file, (h ph hph).file_below,
    (h ph hph).first_below, (h ph hph).bounded, (h ph hph).empty⟩

/-- **A safe image is handled safely**, whatever state the loader is in. -/
theorem SafeImage.handledSafely (h : SafeImage elf) (hb : BoundsHold elf) (s : Keystone)
    (dataStart : Vaddr) : HandledSafely elf s dataStart where
  reads := by
    have hb' : BoundsHold elf.nothingBeyond := ⟨hb.1, hb.2, hb.3, hb.4⟩
    refine neverFaults_loadELF dataStart (fun r hr => ?_) s
    obtain ⟨ph, -, i, src, -, rfl, hread⟩ := h.nothingBeyond.requests hb' hr
    exact fun _ => hread
  maps := by
    rintro va ⟨before, after, l, src, mode, heq, -⟩
    obtain ⟨ph, hph, i, src', hi, hr, -⟩ := h.requests hb (r := .alloc va l src mode) (by
      rw [heq]
      exact List.mem_append_right _ (List.mem_cons_self ..))
    cases hr
    have hpages := (h ph hph).pages hb (mem_loads hph) hi
    have hlt := elf.maxVaddr.isLt
    rw [frameAddr_toNat (by omega) (by decide)]
    exact hpages
  rejects := by
    rintro ⟨ph, hph, hnot⟩
    exact absurd (h ph hph).segment hnot

end Safe

/-! ### What `loadELF` never does -/

/-- `loadELF` reports no error, whatever the image is. -/
theorem loadELF_not_error (elf : ELFFile) (s : Keystone) (dataStart : Vaddr) :
    ¬ reports (loadELF elf dataStart) s .keystoneError := by
  rintro ⟨d, hd⟩
  rw [loadELF_eq, exec_bind] at hd
  rcases hx : exec (runAll elf.tableRequests) s with ⟨r, s₁⟩
  rw [hx] at hd
  cases r with
  | error e => cases hd
  | ok u =>
    dsimp only at hd
    rw [exec_bind, exec_get] at hd
    dsimp only at hd
    rw [exec_bind] at hd
    rcases hy : exec (runAll elf.dataRequests) s₁ with ⟨r', s₂⟩
    rw [hy] at hd
    cases r' with
    | error e => cases hd
    | ok u' => cases hd

/-! ### What is asked for -/

section Asks

variable {rs rs' : List Request} {va : Vaddr}

theorem Asks.head {l : FreeList} {src : HostPtr} {mode : BitVec 32} :
    Asks (.alloc va l src mode :: rs) va :=
  ⟨[], rs, l, src, mode, rfl, fun _ => List.not_mem_nil⟩

theorem Asks.append_right (h : Asks rs va) : Asks (rs ++ rs') va := by
  obtain ⟨before, after, l, src, mode, rfl, hb⟩ := h
  exact ⟨before, after ++ rs', l, src, mode, by rw [List.append_assoc]; rfl, hb⟩

theorem Asks.append_left (hrs : ∀ reason, Request.stop reason ∉ rs) (h : Asks rs' va) :
    Asks (rs ++ rs') va := by
  obtain ⟨before, after, l, src, mode, rfl, hb⟩ := h
  refine ⟨rs ++ before, after, l, src, mode, by rw [List.append_assoc], fun reason hr => ?_⟩
  rcases List.mem_append.mp hr with hr | hr
  · exact hrs reason hr
  · exact hb reason hr

theorem Asks.cons {va' : Vaddr} {l : FreeList} {src : HostPtr} {mode : BitVec 32}
    (h : Asks rs va) : Asks (.alloc va' l src mode :: rs) va := by
  refine Asks.append_left (show ∀ reason, Request.stop reason ∉ [.alloc va' l src mode] from
    fun reason hr => ?_) h
  rw [List.mem_singleton] at hr
  cases hr

/-- The loop over full pages gets to every page up to which its test holds. -/
theorem fullPages_asks (mode : BitVec 32) {fileEnd : Vaddr} {n p q : ℕ} (src : HostPtr)
    (hpq : p ≤ q) (hn : q - p < n)
    (htest : ∀ j, p ≤ j → j ≤ q → frameAddr j 0 + pageSize ≤ fileEnd) :
    Asks (fullPages mode fileEnd n (frameAddr p 0) src).1 (frameAddr q 0) := by
  induction n generalizing p src with
  | zero => omega
  | succ n ih =>
    rw [fullPages, if_pos (htest p (le_refl _) hpq)]
    rcases Nat.eq_or_lt_of_le hpq with rfl | hlt
    · exact Asks.head
    · refine Asks.cons ?_
      rw [frameAddr_add_pageSize]
      exact ih _ hlt (by omega) fun j hj => htest j (by omega)

/-- A page that a run maps has been asked for. -/
theorem run_asks {v : ℕ} {a : AddressSpace} (hv : ∀ r ∈ rs, r.Valid) (hnone : a.leaf v = none)
    (hsome : (exec (forM rs Request.apply) a).2.leaf v ≠ none) :
    ∃ va', Asks rs va' ∧ vpn va' = v := by
  induction rs generalizing a with
  | nil => exact absurd hnone hsome
  | cons r rs ih =>
    have hr := hv r (List.mem_cons_self ..)
    have hrs : ∀ r' ∈ rs, r'.Valid := fun r' hr' => hv r' (List.mem_cons_of_mem _ hr')
    rw [List.forM_cons, exec_bind] at hsome
    have hnew := AddressSpace.apply_leaf_new hr hnone
    rcases hx : exec r.apply a with ⟨res, a₁⟩
    rw [hx] at hsome hnew
    cases r with
    | stop reason =>
      cases hx
      exact absurd hnone hsome
    | walk va =>
      cases hx
      obtain ⟨va', hva', he⟩ := ih hrs hnew hsome
      refine ⟨va', Asks.append_left (show ∀ reason, Request.stop reason ∉ [.walk va] from
        fun reason hr' => ?_) hva', he⟩
      rw [List.mem_singleton] at hr'
      cases hr'
    | alloc va' l src mode =>
      by_cases hvv : vpn va' = v
      · exact ⟨va', Asks.head, hvv⟩
      · rw [Request.content, if_neg hvv] at hnew
        cases res with
        | error e => exact absurd hnew hsome
        | ok u =>
          obtain ⟨va'', hva'', he⟩ := ih hrs hnew hsome
          exact ⟨va'', hva''.cons, he⟩

/-- **`loadELF` maps only pages it asks for.** -/
theorem loadELF_maps_asked {L : Layout} {s : Keystone} {a : AddressSpace} (hr : Repr L s a)
    (elf : ELFFile) (dataStart : Vaddr) (hin : InBuffers L (exec (loadELF elf dataStart) s).2)
    (hnone : s.pteAt va = none) (hsome : (exec (loadELF elf dataStart) s).2.pteAt va ≠ none) :
    ∃ va', Asks elf.dataRequests va' ∧ vpn va' = vpn va := by
  have hrep := (loadELF_represents hr elf dataStart hin).2
  rw [pteAt_eq hr, Option.map_eq_none_iff] at hnone
  rw [pteAt_eq hrep, Ne, Option.map_eq_none_iff] at hsome
  exact run_asks elf.dataRequests_valid (elf.tables_leaf_none hnone) hsome

/-- **An image that is handled safely maps nothing outside its bounds**: what the run adds to
the page table has the page number of a page inside them. -/
theorem HandledSafely.maps_inside {L : Layout} {s : Keystone} {a : AddressSpace} (hr : Repr L s a)
    {elf : ELFFile} {dataStart : Vaddr} (h : HandledSafely elf s dataStart)
    (hin : InBuffers L (exec (loadELF elf dataStart) s).2) (hnone : s.pteAt va = none)
    (hsome : (exec (loadELF elf dataStart) s).2.pteAt va ≠ none) :
    ∃ page : Vaddr, vpn page = vpn va ∧
      elf.minVaddr.toNat ≤ page.toNat ∧ page.toNat + 4096 ≤ elf.maxVaddr.toNat := by
  obtain ⟨page, hasks, hvpn⟩ := loadELF_maps_asked hr elf dataStart hin hnone hsome
  exact ⟨page, hvpn, h.maps page hasks⟩

variable {elf : ELFFile} {ph : ElfPhdr}

/-- A misaligned segment starts with its first page. -/
theorem segment_first (h : ph.Segment elf.file) (hoff : ph.pageOffset ≠ 0)
    (hfirst : ph.pOffset.toNat + (4096 - ph.pageOffset) ≤ elf.file.length) :
    ∃ src, (firstPage elf.getPageMode ph.pVaddr (elf.getProgramSegment ph)).1 =
      [.alloc (frameAddr ph.startPage 0) .epm src elf.getPageMode] := by
  refine ⟨pageSource (elf.getProgramSegment ph) ph.pageOffset ph.fileSpan 0, ?_⟩
  have hcopy : pageCopy ph.pageOffset ph.fileSpan 0 = (0, 4096 - ph.pageOffset) :=
    if_pos ⟨hoff, rfl⟩
  have hread := segment_readable_file h.inFile hfirst
  rw [firstPage_eq, ElfPhdr.skip, if_neg hoff]
  show [pageRequest _ _ _ _ _ 0] = _
  rw [pageRequest, hcopy, HostPtr.add_zero, if_pos hread]
  rfl

/-- A segment with memory, or a misaligned one, gets to its first page. -/
theorem segment_asks_start (h : ph.Segment elf.file)
    (hfirst : ph.pageOffset ≠ 0 →
      ph.pOffset.toNat + (4096 - ph.pageOffset) ≤ elf.file.length)
    (hpage : ph.pageOffset ≠ 0 ∨ ph.pMemsz.toNat ≠ 0) :
    Asks (segmentRequests elf elf.getPageMode ph) (frameAddr ph.startPage 0) := by
  rw [segmentRequests, List.append_assoc, List.append_assoc]
  by_cases hoff : ph.pageOffset = 0
  · -- the loop that takes the first page is the first whose test holds
    have hsize := h.size
    have hwrap := h.no_wrap
    have hv := ph.pVaddr_eq
    have hrounds : loopRounds = 4503599627370495 + 1 := rfl
    have hfe : (ph.pVaddr + ph.pFilesz).toNat = ph.pVaddr.toNat + ph.pFilesz.toNat := by
      rw [BitVec.toNat_add, Nat.mod_eq_of_lt (by omega)]
    have hme : (ph.pVaddr + ph.pMemsz).toNat = ph.pVaddr.toNat + ph.pMemsz.toNat := by
      rw [BitVec.toNat_add, Nat.mod_eq_of_lt (by omega)]
    have hva : (frameAddr ph.startPage 0).toNat = ph.pVaddr.toNat := by
      rw [frameAddr_toNat (by omega) (by decide)]
      omega
    rw [firstPage_eq, ElfPhdr.skip, if_pos hoff]
    show Asks (_ ++ (_ ++ _)) _
    simp only [List.range_zero, List.map_nil, List.nil_append, Nat.add_zero, hrounds]
    rw [fullPages]
    by_cases hfull : frameAddr ph.startPage 0 + pageSize ≤ ph.pVaddr + ph.pFilesz
    · rw [if_pos hfull]
      exact Asks.append_right Asks.head
    · rw [if_neg hfull]
      simp only [List.nil_append]
      rw [mixedPage]
      by_cases hmixed : frameAddr ph.startPage 0 < ph.pVaddr + ph.pFilesz
      · have hlen : (ph.pVaddr + ph.pFilesz - frameAddr ph.startPage 0).toNat =
            ph.pFilesz.toNat := by
          rw [BitVec.toNat_sub, hfe, hva]
          omega
        have hread := segment_readable h.inFile (m := 0) (n := ph.pFilesz.toNat) (by omega)
        rw [if_pos hmixed, Nat.mul_zero, hoff, hlen, if_pos hread]
        exact Asks.append_right Asks.head
      · have hmem : frameAddr ph.startPage 0 < ph.pVaddr + ph.pMemsz := by
          rw [BitVec.lt_def, hva, hme]
          omega
        rw [if_neg hmixed]
        simp only [List.nil_append]
        rw [bssPages, if_pos hmem]
        exact Asks.head
  · obtain ⟨src, hsrc⟩ := segment_first h hoff (hfirst hoff)
    rw [hsrc]
    exact Asks.head

/-- A segment whose file data, or whose misaligned first page, reaches the last
page of the address space gets to that page. -/
theorem segment_asks_last (h : ph.Segment elf.file)
    (hfirst : ph.pageOffset ≠ 0 →
      ph.pOffset.toNat + (4096 - ph.pageOffset) ≤ elf.file.length)
    (hlast : 18446744073709551616 ≤ ph.pVaddr.toNat + ph.pFilesz.toNat + 4096 ∨
      (ph.pageOffset ≠ 0 ∧ ph.startPage = 4503599627370494)) :
    Asks (segmentRequests elf elf.getPageMode ph) (frameAddr 4503599627370495 0) := by
  have hsize := h.size
  have hwrap := h.no_wrap
  have hv := ph.pVaddr_eq
  have hlt := ph.pageOffset_lt
  have hfe : (ph.pVaddr + ph.pFilesz).toNat = ph.pVaddr.toNat + ph.pFilesz.toNat := by
    rw [BitVec.toNat_add, Nat.mod_eq_of_lt (by omega)]
  by_cases hin : ph.pageOffset ≠ 0 ∧ ph.startPage = 4503599627370495
  · -- the first page is the last one
    have hstart := segment_asks_start h hfirst (Or.inl hin.1)
    rwa [hin.2] at hstart
  · have hskip := ph.skip_cases
    have htest : ∀ j, ph.startPage + ph.skip ≤ j → j ≤ 4503599627370495 →
        frameAddr j 0 + pageSize ≤ ph.pVaddr + ph.pFilesz := by
      intro j hj hj'
      rw [frameAddr_add_pageSize, BitVec.le_def, frameAddr_toNat_mod, hfe]
      omega
    have hfull := fullPages_asks elf.getPageMode (n := loopRounds)
      ((elf.getProgramSegment ph).add (4096 * ph.skip - ph.pageOffset))
      (show ph.startPage + ph.skip ≤ 4503599627370495 by omega)
      (show _ < 4503599627370496 by omega) htest
    rw [segmentRequests, List.append_assoc, List.append_assoc]
    have hnostop : ∀ reason, Request.stop reason ∉
        (firstPage elf.getPageMode ph.pVaddr (elf.getProgramSegment ph)).1 := by
      intro reason hr
      by_cases hoff : ph.pageOffset = 0
      · rw [firstPage_eq, ElfPhdr.skip, if_pos hoff] at hr
        cases hr
      · obtain ⟨src, hsrc⟩ := segment_first h hoff (hfirst hoff)
        rw [hsrc, List.mem_singleton] at hr
        cases hr
    refine Asks.append_left hnostop (Asks.append_right ?_)
    rw [firstPage_eq]
    exact hfull

end Asks

/-! ### An EPM that is never used up -/

/-- The number of a page in its buffer. -/
def Frame.page : Frame → ℕ
  | .epm k => k
  | .utm j => j

/-- An address space has fewer tables and pages than there are numbers for
them. -/
theorem AddressSpace.WF.epmUsed_le {a : AddressSpace} (hw : a.WF) : a.epmUsed ≤ 2 ^ 28 := by
  -- a number for every table, and behind them one for every page
  let frameOf : ℕ → ℕ := fun c =>
    if c < 3 * 262144 then (a.tab (c / 262144) (c % 262144)).getD 0
    else ((a.leaf (c - 3 * 262144)).map fun lf => lf.frame.page).getD 0
  have hsub : Finset.range a.epmUsed ⊆
      (Finset.range (3 * 262144 + 134217728)).image frameOf := by
    intro k hk
    rcases hw.epm_used (Finset.mem_range.mp hk) with ⟨h, q, htab⟩ | ⟨v, lf, hl, hfr⟩
    · obtain ⟨hh, hq⟩ := hw.tab_range htab
      have hq' : q < 262144 := by
        refine lt_of_lt_of_le hq ?_
        have hpow : 512 ^ (2 - h) ≤ 512 ^ 2 := Nat.pow_le_pow_right (by decide) (by omega)
        exact hpow
      refine Finset.mem_image.mpr ⟨h * 262144 + q, Finset.mem_range.mpr (by omega), ?_⟩
      show (if h * 262144 + q < 3 * 262144 then _ else _) = k
      rw [if_pos (by omega), show (h * 262144 + q) / 262144 = h by omega,
        show (h * 262144 + q) % 262144 = q by omega, htab]
      rfl
    · have hv := hw.leaf_range hl
      refine Finset.mem_image.mpr ⟨3 * 262144 + v, Finset.mem_range.mpr (by omega), ?_⟩
      show (if 3 * 262144 + v < 3 * 262144 then _ else _) = k
      rw [if_neg (by omega), Nat.add_sub_cancel_left, hl]
      obtain ⟨frame, flags, bytes⟩ := lf
      change frame = .epm k at hfr
      subst hfr
      rfl
  have hcard := Finset.card_le_card hsub
  rw [Finset.card_range] at hcard
  have himage := Finset.card_image_le (s := Finset.range (3 * 262144 + 134217728)) (f := frameOf)
  rw [Finset.card_range] at himage
  omega

/-- An EPM with a page for every table and every page number, and no UTM. -/
def largeLayout : Layout where
  epmFrame := 1
  epmPages := 2 ^ 28
  utmFrame := 0
  utmPages := 0
  utmBase := 0#64
  utmBase_eq := fun h => absurd h (by decide)
  epm_le := by decide
  utm_le := by decide
  epmPages_lt := by decide
  utmPages_lt := by decide
  disjoint := fun _ _ _ hj => absurd hj (Nat.not_lt_zero _)

/-- The first state of `largeLayout`. -/
def largeState : Keystone where
  mem := fun _ => 0
  rootPageTable := frameAddr 1 0
  startAddr := frameAddr 1 0
  epmFreeList := frameAddr 2 0
  utmFreeList := 0#64
  untrustedStart := 0#64
  untrustedSize := 0#64
  hash := none
  epmPages := [frameAddr 1 0]
  utmPages := []

theorem largeState_initial : Repr.Initial largeLayout largeState where
  room := by decide
  root := rfl
  epmFree := rfl
  utmFree := rfl
  zero := fun _ _ => rfl
  epmLog := rfl
  utmLog := rfl

/-- A request that takes pages from the EPM only, and comes back. -/
def EpmRequest : Request → Prop
  | .walk _ => True
  | .alloc _ l src mode => l = .epm ∧ (modeFlags mode).isSome ∧ src.readable 4096 = true
  | .stop _ => False

theorem EpmRequest.valid {r : Request} (h : EpmRequest r) : r.Valid ∧ r.Returns := by
  cases r with
  | walk va => exact ⟨trivial, trivial⟩
  | alloc va l src mode => exact ⟨h.2.1, fun _ => h.2.2⟩
  | stop reason => exact h.elim

theorem EpmRequest.utmUsed {r : Request} (h : EpmRequest r) (a : AddressSpace) :
    (exec r.apply a).2.utmUsed = a.utmUsed := by
  cases r with
  | walk va => exact AddressSpace.touch_utmUsed _
  | alloc va l src mode =>
    obtain ⟨rfl, hmode, -⟩ := h
    obtain ⟨flags, hf⟩ := Option.isSome_iff_exists.mp hmode
    rw [exec_apply_alloc a va .epm src hf, AddressSpace.place_used.2]
    split
    · exact AddressSpace.touch_utmUsed _
    · exact AddressSpace.touch_utmUsed _
  | stop reason => exact h.elim

/-- Such requests come back in the large EPM, one after the other. -/
theorem epmRequests_return {rs : List Request} (h : ∀ r ∈ rs, EpmRequest r) {s : Keystone}
    {a : AddressSpace} (hr : Repr largeLayout s a) (hused : a.utmUsed = 0) :
    ∃ s' b, exec (runAll rs) s = (.ok ⟨⟩, s') ∧ Repr largeLayout s' b ∧ b.utmUsed = 0 := by
  have hv : ∀ r ∈ rs, r.Valid := fun r hr => (h r hr).valid.1
  have hwf := AddressSpace.run_wf hv hr.wf
  have hutm : (exec (forM rs Request.apply) a).2.utmUsed = 0 :=
    forM_preserves (P := fun x : AddressSpace => x.utmUsed = 0) rs
      (fun r hr x hx => by rw [(h r hr).utmUsed, hx]) hused
  have hfits : (exec (forM rs Request.apply) a).2.Fits largeLayout :=
    ⟨hwf.epmUsed_le, hutm.le⟩
  obtain ⟨hok, hrep⟩ := (requests_simulate largeLayout rs hv).good s a hr hfits
  rw [AddressSpace.run_returns hv fun r hr => (h r hr).valid.2] at hok
  rcases hx : exec (runAll rs) s with ⟨r, s'⟩
  rw [hx] at hok hrep
  change r = _ at hok
  subst hok
  exact ⟨s', _, rfl, hrep, hutm⟩

theorem vspaceRequests_epm (n : ℕ) (va : Vaddr) : ∀ r ∈ vspaceRequests n va, EpmRequest r := by
  induction n generalizing va with
  | zero => rintro r ⟨⟩
  | succ n ih =>
    rintro r (_ | ⟨_, hr⟩)
    · trivial
    · exact ih _ r hr

/-- In the large EPM, a load that gets to a fault ends in it. -/
theorem loadELF_faults {elf : ELFFile} (dataStart : Vaddr) {before after : List Request}
    (heq : elf.dataRequests = before ++ .stop .segfault :: after)
    (hbefore : ∀ r ∈ before, EpmRequest r) :
    (exec (loadELF elf dataStart) largeState).1 = .error .segfault := by
  have htables : ∀ r ∈ elf.tableRequests, EpmRequest r := vspaceRequests_epm _ _
  obtain ⟨s₁, a₁, hx₁, hr₁, hu₁⟩ :=
    epmRequests_return htables (Repr.of_initial largeState_initial) rfl
  obtain ⟨s₂, a₂, hx₂, -, -⟩ := epmRequests_return hbefore hr₁ hu₁
  rw [loadELF_eq, exec_bind_ok hx₁, exec_bind, exec_get]
  dsimp only
  rw [heq, runAll_append, bind_assoc, exec_bind_ok hx₂, runAll_cons]
  rfl

/-! ### Images that are handled safely -/

section Necessary

variable {elf : ELFFile} {ph : ElfPhdr}

/-- The first header that cannot be loaded safely. -/
theorem exists_first_unsafe {l : List ElfPhdr} (h : ¬ ∀ ph ∈ l, SafeSegment elf ph) :
    ∃ before ph after, l = before ++ ph :: after ∧ (∀ ph' ∈ before, SafeSegment elf ph') ∧
      ¬ SafeSegment elf ph := by
  induction l with
  | nil => exact absurd (fun ph hph => absurd hph List.not_mem_nil) h
  | cons ph l ih =>
    by_cases hph : SafeSegment elf ph
    · have hrest : ¬ ∀ ph' ∈ l, SafeSegment elf ph' := by
        intro hl
        refine h fun ph' hph' => ?_
        rcases List.mem_cons.mp hph' with rfl | hph'
        · exact hph
        · exact hl ph' hph'
      obtain ⟨before, ph', after, rfl, hbefore, hnot⟩ := ih hrest
      refine ⟨ph :: before, ph', after, rfl, fun ph'' hph'' => ?_, hnot⟩
      rcases List.mem_cons.mp hph'' with rfl | hph''
      · exact hph
      · exact hbefore ph'' hph''
    · exact ⟨[], ph, l, rfl, fun ph' hph' => absurd hph' List.not_mem_nil, hph⟩

/-- The requests of the headers before and behind a header. -/
theorem dataRequests_split {before after : List ElfPhdr} (h : elf.loads = before ++ ph :: after) :
    elf.dataRequests = before.flatMap (segmentRequests elf elf.getPageMode) ++
      (segmentRequests elf elf.getPageMode ph ++
        after.flatMap (segmentRequests elf elf.getPageMode)) := by
  show elf.loads.flatMap _ = _
  rw [h, List.flatMap_append, List.flatMap_cons]

/-- The requests of safe headers. -/
theorem safe_epmRequests (hb : BoundsHold elf) {l : List ElfPhdr}
    (hl : ∀ ph ∈ l, SafeSegment elf ph) (hmem : ∀ ph ∈ l, ph ∈ elf.phdrs) :
    ∀ r ∈ l.flatMap (segmentRequests elf elf.getPageMode), EpmRequest r := by
  intro r hr
  obtain ⟨ph, hph, hr⟩ := List.mem_flatMap.mp hr
  obtain ⟨i, src, -, rfl, hread⟩ := (hl ph hph).requests ((hl ph hph).ends hb (hmem ph hph)) hr
  exact ⟨rfl, elf.getPageMode_valid, hread⟩

/-- A misaligned first page that the file has too few bytes for is a fault, when
nothing else can be read. -/
theorem segment_faults (h : ph.Segment elf.file) (hoff : ph.pageOffset ≠ 0)
    (hfirst : elf.file.length < ph.pOffset.toNat + (4096 - ph.pageOffset)) :
    ∃ rs, segmentRequests elf.nothingBeyond elf.getPageMode ph = .stop .segfault :: rs := by
  have hin : ph.InFile elf.nothingBeyond.file := h.inFile
  have hinside := h.inFile.inside
  have hcopy : pageCopy ph.pageOffset ph.fileSpan 0 = (0, 4096 - ph.pageOffset) :=
    if_pos ⟨hoff, rfl⟩
  have hread : (elf.nothingBeyond.getProgramSegment ph).readable (4096 - ph.pageOffset) ≠ true := by
    rw [Ne, HostPtr.readable_iff]
    intro hall
    have hnone := hall (elf.file.length - ph.pOffset.toNat) (by omega)
    rw [getProgramSegment_inFile hin, HostPtr.add, ELFFile.byteAt, dif_neg (by
      show ¬ _ < elf.file.length
      omega)] at hnone
    cases hnone
  have hpage : (firstPage elf.getPageMode ph.pVaddr
      (elf.nothingBeyond.getProgramSegment ph)).1 = [.stop .segfault] := by
    rw [firstPage_eq, ElfPhdr.skip, if_neg hoff]
    show [pageRequest _ _ _ _ _ 0] = _
    rw [pageRequest, hcopy, HostPtr.add_zero, if_neg hread]
  rw [segmentRequests, List.append_assoc, List.append_assoc, hpage]
  exact ⟨_, rfl⟩

/-- **An image that is handled safely in every state is safe.** -/
theorem safeImage_of_handledSafely (hb : BoundsHold elf)
    (h : ∀ s dataStart, HandledSafely elf s dataStart) : SafeImage elf := by
  -- no image is ever rejected, so there is nothing to reject
  have hsegment : ∀ ph ∈ elf.loads, ph.Segment elf.file := by
    intro ph hph
    by_contra hnot
    exact loadELF_not_error elf largeState 0#64 ((h largeState 0#64).rejects ⟨ph, hph, hnot⟩)
  by_contra hunsafe
  obtain ⟨before, ph, after, hsplit, hbefore, hnot⟩ := exists_first_unsafe hunsafe
  have hloads : ∀ ph' ∈ before, ph' ∈ elf.phdrs := fun ph' hph' => mem_loads (by
    rw [hsplit]
    exact List.mem_append_left _ hph')
  have hph : ph ∈ elf.loads := by
    rw [hsplit]
    exact List.mem_append_right _ (List.mem_cons_self ..)
  have hseg := hsegment ph hph
  -- the file has the rest of a misaligned first page
  have hfirst : ph.pageOffset ≠ 0 →
      ph.pOffset.toNat + (4096 - ph.pageOffset) ≤ elf.file.length := by
    intro hoff
    by_contra hshort
    obtain ⟨rs, hrs⟩ := segment_faults hseg hoff (by omega)
    have hb' : BoundsHold elf.nothingBeyond := ⟨hb.1, hb.2, hb.3, hb.4⟩
    have hsafe : ∀ ph' ∈ before, SafeSegment elf.nothingBeyond ph' := fun ph' hph' =>
      ⟨(hbefore ph' hph').segment, (hbefore ph' hph').first_in_file, (hbefore ph' hph').file_below,
        (hbefore ph' hph').first_below, (hbefore ph' hph').bounded, (hbefore ph' hph').empty⟩
    have hdata := dataRequests_split (show elf.nothingBeyond.loads = _ from hsplit)
    rw [show segmentRequests elf.nothingBeyond elf.nothingBeyond.getPageMode ph = _ from hrs,
      List.cons_append] at hdata
    exact (h largeState 0#64).reads
      (loadELF_faults 0#64 hdata (safe_epmRequests hb' hsafe hloads))
  -- the requests get to the header
  have hasks : ∀ va, Asks (segmentRequests elf elf.getPageMode ph) va →
      elf.minVaddr.toNat ≤ va.toNat ∧ va.toNat + 4096 ≤ elf.maxVaddr.toNat := by
    intro va hva
    refine (h largeState 0#64).maps va ?_
    rw [dataRequests_split hsplit]
    refine Asks.append_left (fun reason hr => ?_) (Asks.append_right hva)
    exact safe_epmRequests hb hbefore hloads _ hr
  have hstart : ph.pageOffset ≠ 0 ∨ ph.pMemsz.toNat ≠ 0 →
      elf.minVaddr.toNat ≤ 4096 * ph.startPage ∧
        4096 * ph.startPage + 4096 ≤ elf.maxVaddr.toNat := by
    intro hpage
    have hin := hasks _ (segment_asks_start hseg hfirst hpage)
    have hlt := ph.pVaddr.isLt
    have hv := ph.pVaddr_eq
    rwa [frameAddr_toNat (by omega) (by decide), Nat.add_zero] at hin
  have hlast : ¬ (18446744073709551616 ≤ ph.pVaddr.toNat + ph.pFilesz.toNat + 4096 ∨
      (ph.pageOffset ≠ 0 ∧ ph.startPage = 4503599627370494)) := by
    intro hlast
    have hin := hasks _ (segment_asks_last hseg hfirst hlast)
    have hlt := elf.maxVaddr.isLt
    rw [frameAddr_toNat (by decide) (by decide)] at hin
    omega
  have hv := ph.pVaddr_eq
  have hoff := ph.pageOffset_lt
  refine hnot ⟨hseg, hfirst, by omega, by omega, ?_, ?_⟩
  · intro hmem
    have := hstart (Or.inr hmem)
    omega
  · intro _ hmis
    have := hstart (Or.inl hmis)
    omega

end Necessary

/-- **Which images are handled safely**: for every file that
`ELFFile::initialize` accepts, `loadELF` handles it safely in every state exactly
when each of its segments can be loaded safely. -/
theorem loadELF_safe_iff {file : List Byte} {beyond : HostPtr} {isRuntime : Bool} {elf : ELFFile}
    (haccepted : ELFFile.initialize file beyond isRuntime = some elf) :
    (∀ s dataStart, HandledSafely elf s dataStart) ↔ SafeImage elf := by
  have hb := boundsHold_of_initialize haccepted
  constructor
  · intro h
    exact safeImage_of_handledSafely hb h
  · intro h s dataStart
    exact h.handledSafely hb s dataStart

theorem loadELF_safe_iff_shared :
    (∀ s dataStart, HandledSafely sharedElf s dataStart) ↔ SafeImage sharedElf :=
  loadELF_safe_iff sharedElf_accepted

/-- A segment with four bytes in the file and one in memory. -/
def oversizedPhdr : ElfPhdr := ⟨ptLoad, 120#64, 0x10000#64, 4#64, 1#64⟩

def oversizedFile : List Byte := elf64Bytes 0x10000#64 [oversizedPhdr] [1#8, 2#8, 3#8, 4#8]

/-- `oversizedFile`, as `ELFFile` holds it. -/
def oversizedElf : ELFFile where
  file := oversizedFile
  beyond := HostPtr.null
  entryPoint := 0x10000#64
  phdrs := [oversizedPhdr]
  minVaddr := 0x10000#64
  maxVaddr := 0x11000#64
  isRuntime := false

/-- The file is accepted and not rejected when it is loaded, although its
segment has more file data than memory. -/
theorem oversized_not_rejected :
    ¬ ∀ (file : List Byte) (beyond : HostPtr) (isRuntime : Bool) (elf : ELFFile),
      ELFFile.initialize file beyond isRuntime = some elf →
        ∀ s dataStart, HandledSafely elf s dataStart := by
  intro h
  have helf : elfNewFile oversizedFile = some ⟨0x10000#64, [oversizedPhdr]⟩ := by decide +kernel
  have haccepted : ELFFile.initialize oversizedFile HostPtr.null false = some oversizedElf :=
    ELFFile.initialize_some _ false (by decide +kernel) helf (by decide +kernel)
  have hload : oversizedPhdr ∈ oversizedElf.loads := by decide +kernel
  have hnot : ¬ oversizedPhdr.Segment oversizedElf.file := fun hseg => absurd hseg.size (by decide)
  exact loadELF_not_error oversizedElf smallState 0#64
    ((h _ _ _ _ haccepted smallState 0#64).rejects ⟨oversizedPhdr, hload, hnot⟩)

end KeystoneSdk
