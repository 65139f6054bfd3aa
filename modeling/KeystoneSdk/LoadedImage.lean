/-
What `loadELF` puts into the address space.

Every page number gets what the first page of the image with that number holds:
the segments in the order of their headers, the pages of a segment from its
start, page numbers modulo `2 ^ 27`.  `ELFFile.pageFor` is that page, and
`ELFFile.firstPageByte` the byte it has at an address.

* `loaded_leaf` — a successful load maps exactly these pages;
* `loadELF_aligned` — page-aligned segments on different pages are loaded
  without loss, and nothing else changes;
* `loadELF_misaligned_iff` — misaligned segments are loaded without loss
  exactly when the first page with the number of a byte's page has that byte.
-/
import KeystoneSdk.PageTableMap
import KeystoneSdk.SegmentPages

open ByteMemory StopM

namespace KeystoneSdk

/-! ### The pages of an image -/

/-- The number by which the page table knows page `x.2` of segment `x.1`. -/
def pageNumber (x : ElfPhdr × ℕ) : ℕ := (x.1.startPage + x.2) % 134217728

namespace ELFFile

/-- The `PT_LOAD` headers. -/
def loads (elf : ELFFile) : List ElfPhdr := elf.phdrs.filter fun ph => ph.pType = ptLoad

/-- The pages of the image, in the order in which `loadELF` loads them. -/
def segmentPages (elf : ELFFile) : List (ElfPhdr × ℕ) :=
  elf.loads.flatMap fun ph => (List.range ph.pageCount).map fun i => (ph, i)

/-- The first page of the image with number `w`. -/
def pageFor (elf : ELFFile) (w : ℕ) : Option (ElfPhdr × ℕ) :=
  elf.segmentPages.find? fun x => pageNumber x = w

/-- Byte `o` of a page of the image. -/
def pageBytes (elf : ELFFile) (x : ElfPhdr × ℕ) (o : ℕ) : Byte :=
  pageByte (elf.getProgramSegment x.1) x.1.pageOffset x.1.fileSpan x.2 o

/-- The byte of the image at an address: in the first page with its number. -/
def firstPageByte (elf : ELFFile) (va : Vaddr) : Option Byte :=
  (elf.pageFor (vpn va)).map fun x => elf.pageBytes x (va.toNat % 4096)

/-- What `loadELF` asks for at a page of the image. -/
def requestFor (elf : ELFFile) (x : ElfPhdr × ℕ) : Request :=
  pageRequest elf.getPageMode x.1.startPage (elf.getProgramSegment x.1) x.1.pageOffset
    x.1.fileSpan x.2

variable {elf : ELFFile}

theorem mem_segmentPages {x : ElfPhdr × ℕ} :
    x ∈ elf.segmentPages ↔ x.1 ∈ elf.loads ∧ x.2 < x.1.pageCount := by
  obtain ⟨ph, i⟩ := x
  constructor
  · intro h
    obtain ⟨ph', hph, hx⟩ := List.mem_flatMap.mp h
    obtain ⟨j, hj, he⟩ := List.mem_map.mp hx
    cases he
    exact ⟨hph, List.mem_range.mp hj⟩
  · rintro ⟨hph, hi⟩
    exact List.mem_flatMap.mpr ⟨ph, hph, List.mem_map.mpr ⟨i, List.mem_range.mpr hi, rfl⟩⟩

/-- The requests of the image, page by page. -/
theorem dataRequests_eq (hends : ∀ ph ∈ elf.loads, ph.Ends) :
    elf.dataRequests = elf.segmentPages.map elf.requestFor := by
  rw [dataRequests, segmentsRequests, segmentPages, List.map_flatMap]
  refine List.flatMap_congr fun ph hph => ?_
  rw [segmentRequests_eq elf (hends ph hph), List.map_map]
  rfl

/-- What the page `x` of the image is mapped with. -/
def contentFor (elf : ELFFile) (x : ElfPhdr × ℕ) : Content :=
  ⟨.epm, (modeFlags elf.getPageMode).getD 0,
    (pageSource (elf.getProgramSegment x.1) x.1.pageOffset x.1.fileSpan x.2).bytes⟩

/-- What an allocation for page `x` gives to page number `w`. -/
theorem requestFor_content {x : ElfPhdr × ℕ} (hx : elf.requestFor x ≠ .stop .segfault)
    (w : ℕ) :
    (elf.requestFor x).content w =
      if pageNumber x = w then some (elf.contentFor x) else none := by
  rw [requestFor, pageRequest] at hx ⊢
  split at hx
  · rename_i hread
    have hmode : modeWrites elf.getPageMode = true := by
      rw [getPageMode]
      split <;> rfl
    rw [if_pos hread, Request.content, vpn_frameAddr (by decide), hmode]
    rfl
  · exact absurd rfl hx

/-! ### A load that returned -/

/-- The first of a list of keyed contents. -/
theorem findSome?_eq_find? {α β : Type} (l : List α) (key : α → ℕ) (w : ℕ) (f : α → β)
    (g : α → Option β) (h : ∀ x ∈ l, g x = if key x = w then some (f x) else none) :
    l.findSome? g = (l.find? fun x => key x = w).map f := by
  induction l with
  | nil => rfl
  | cons x l ih =>
    rw [List.findSome?_cons, h x (List.mem_cons_self ..),
      ih fun y hy => h y (List.mem_cons_of_mem _ hy), List.find?_cons]
    by_cases hx : key x = w
    · rw [if_pos hx, decide_eq_true hx]
      rfl
    · rw [if_neg hx, decide_eq_false hx]

variable {a b : AddressSpace}

/-- **What a load leaves behind**, when it returned: an unmapped page number has
got the first page of the image with that number, if there is one. -/
theorem loaded_leaf (hends : ∀ ph ∈ elf.loads, ph.Ends)
    (hok : elf.loaded a = (.ok ⟨⟩, b)) {w : ℕ} (hnone : a.leaf w = none) :
    match elf.pageFor w with
    | none => b.leaf w = none
    | some x => ∃ lf, b.leaf w = some lf ∧ lf.frame.list = .epm ∧
        modeFlags elf.getPageMode = some lf.flags ∧
        ∀ o, o < 4096 → lf.bytes o = elf.pageBytes x o := by
  have hrun := AddressSpace.run_leaf elf.dataRequests_valid (elf.tables_leaf_none hnone) hok
  have hstop := AddressSpace.not_stop_of_run_ok hok .segfault
  obtain ⟨flags, hflags⟩ := Option.isSome_iff_exists.mp elf.getPageMode_valid
  rw [dataRequests_eq hends] at hrun hstop
  have hfind : (elf.segmentPages.map elf.requestFor).findSome? (Request.content w) =
      (elf.pageFor w).map elf.contentFor := by
    rw [List.findSome?_map]
    exact findSome?_eq_find? _ pageNumber w _ _ fun x hx =>
      requestFor_content (fun he => hstop (he ▸ List.mem_map_of_mem hx)) w
  rw [hfind] at hrun
  rcases hp : elf.pageFor w with _ | x <;> rw [hp] at hrun
  · exact hrun
  · obtain ⟨lf, hl, hlist, hfl, hby⟩ := hrun
    refine ⟨lf, hl, hlist, ?_, fun o ho => ?_⟩
    · rw [hfl, ELFFile.contentFor, hflags, Option.getD_some]
    · rw [hby]
      exact pageSource_bytes _ x.1.pageOffset_lt ho

/-- A load leaves alone what is mapped. -/
theorem loaded_leaf_mono (elf : ELFFile) {v : ℕ} {lf : Leaf} (h : a.leaf v = some lf) :
    (elf.loaded a).2.leaf v = some lf :=
  AddressSpace.run_leaf_mono elf.dataRequests_valid (elf.tables_leaf_mono h)

/-- The requests of a segment are among those of the image. -/
theorem mem_dataRequests {ph : ElfPhdr} (hph : ph ∈ elf.loads) {r : Request}
    (hr : r ∈ segmentRequests elf elf.getPageMode ph) : r ∈ elf.dataRequests :=
  List.mem_flatMap.mpr ⟨ph, hph, hr⟩

end ELFFile

theorem fullPages_aligned (mode : BitVec 32) (fileEnd : Vaddr) (n p : ℕ) (src : HostPtr) :
    ∃ q, (fullPages mode fileEnd n (frameAddr p 0) src).2.1 = frameAddr q 0 := by
  induction n generalizing p src with
  | zero => exact ⟨p, rfl⟩
  | succ n ih =>
    rw [fullPages]
    split
    · rw [frameAddr_add_pageSize]
      exact ih _ _
    · exact ⟨p, rfl⟩

theorem mixedPage_aligned (mode : BitVec 32) (fileEnd : Vaddr) (p : ℕ) (src : HostPtr) :
    ∃ q, (mixedPage mode fileEnd (frameAddr p 0) src).2 = frameAddr q 0 := by
  rw [mixedPage]
  split
  · exact ⟨p + 1, frameAddr_add_pageSize p⟩
  · exact ⟨p, rfl⟩

/-- A segment whose loading came back ends before the last page of the address
space. -/
theorem ends_of_loaded {elf : ELFFile} {a b : AddressSpace} (hok : elf.loaded a = (.ok ⟨⟩, b))
    {ph : ElfPhdr} (hph : ph ∈ elf.loads)
    (hfile : ph.pVaddr.toNat + ph.pFilesz.toNat < 18446744073709551616)
    (hmem : ph.pVaddr.toNat + ph.pMemsz.toNat < 18446744073709551616) : ph.Ends := by
  have hstop := AddressSpace.not_stop_of_run_ok hok .diverges
  have hnot : .stop .diverges ∉ segmentRequests elf elf.getPageMode ph := fun h =>
    hstop (ELFFile.mem_dataRequests hph h)
  have hfe : (ph.pVaddr + ph.pFilesz).toNat = ph.pVaddr.toNat + ph.pFilesz.toNat := by
    rw [BitVec.toNat_add, Nat.mod_eq_of_lt (by omega)]
  have hme : (ph.pVaddr + ph.pMemsz).toNat = ph.pVaddr.toNat + ph.pMemsz.toNat := by
    rw [BitVec.toNat_add, Nat.mod_eq_of_lt (by omega)]
  simp only [segmentRequests, firstPage_eq, List.mem_append, not_or] at hnot
  obtain ⟨⟨⟨_, hfull⟩, _⟩, hbss⟩ := hnot
  constructor
  · by_contra hge
    exact hfull (diverges_of_fileEnd (by omega) _ _ _)
  · by_contra hge
    obtain ⟨q, hq⟩ := fullPages_aligned elf.getPageMode (ph.pVaddr + ph.pFilesz) loopRounds
      (ph.startPage + ph.skip)
      ((elf.getProgramSegment ph).add (4096 * ph.skip - ph.pageOffset))
    rw [hq] at hbss
    obtain ⟨q', hq'⟩ := mixedPage_aligned elf.getPageMode (ph.pVaddr + ph.pFilesz) q
      (fullPages elf.getPageMode (ph.pVaddr + ph.pFilesz) loopRounds
        (frameAddr (ph.startPage + ph.skip) 0)
        ((elf.getProgramSegment ph).add (4096 * ph.skip - ph.pageOffset))).2.2
    rw [hq'] at hbss
    exact hbss (diverges_of_memoryEnd (by omega) _ _)

/-! ### Segments inside the file -/

/-- The file range of the segment lies inside the file.  A file has less than
`2 ^ 64` bytes, so the end of the range is a 64-bit number. -/
structure ElfPhdr.InFile (ph : ElfPhdr) (file : List Byte) : Prop where
  inside : ph.pOffset.toNat + ph.pFilesz.toNat ≤ file.length
  fits : ph.pOffset.toNat + ph.pFilesz.toNat < 18446744073709551616

section InFile

variable {elf : ELFFile} {ph : ElfPhdr}

theorem getProgramSegment_inFile (h : ph.InFile elf.file) :
    elf.getProgramSegment ph = HostPtr.add elf.byteAt ph.pOffset.toNat := by
  have h1 := h.inside
  have h2 := h.fits
  have hend : (ph.pOffset + ph.pFilesz).toNat = ph.pOffset.toNat + ph.pFilesz.toNat := by
    rw [BitVec.toNat_add, Nat.mod_eq_of_lt (by omega)]
  rw [ELFFile.getProgramSegment, if_neg]
  rw [hend, BitVec.lt_def, hend]
  omega

theorem segment_some (h : ph.InFile elf.file) {i : ℕ} (hi : i < ph.pFilesz.toNat) :
    elf.getProgramSegment ph i = elf.file[ph.pOffset.toNat + i]? := by
  have h1 := h.inside
  rw [getProgramSegment_inFile h, HostPtr.add, ELFFile.byteAt, dif_pos (by omega),
    List.getElem?_eq_getElem]

/-- The loader can read what is in the file. -/
theorem segment_readable (h : ph.InFile elf.file) {m n : ℕ} (hn : m + n ≤ ph.pFilesz.toNat) :
    ((elf.getProgramSegment ph).add m).readable n = true := by
  refine HostPtr.readable_iff.mpr fun i hi => ?_
  have h1 := h.inside
  rw [HostPtr.add, segment_some h (by omega), List.getElem?_eq_getElem (by omega)]
  rfl

theorem segment_bytes (h : ph.InFile elf.file) {i : ℕ} (hi : i < ph.pFilesz.toNat) :
    some ((elf.getProgramSegment ph).bytes i) = elf.file[ph.pOffset.toNat + i]? := by
  have h1 := h.inside
  rw [HostPtr.bytes, segment_some h hi, List.getElem?_eq_getElem (by omega)]
  rfl

/-- A page of an aligned segment inside the file is allocated, and comes back. -/
theorem requestFor_aligned (h : ph.InFile elf.file) (hal : ph.pageOffset = 0) (i : ℕ) :
    (elf.requestFor (ph, i)).Returns := by
  have hspan : ph.fileSpan = ph.pFilesz.toNat := if_neg fun hc => hc.1 hal
  have hnot : ¬ (ph.pageOffset ≠ 0 ∧ i = 0) := fun hc => hc.1 hal
  have hcopy : ((elf.getProgramSegment ph).add
      (pageCopy ph.pageOffset ph.fileSpan i).1).readable
        (pageCopy ph.pageOffset ph.fileSpan i).2 = true := by
    rw [pageCopy, if_neg hnot, hal, hspan]
    split
    · rfl
    · rcases Nat.lt_or_ge (4096 * i) (0 + ph.pFilesz.toNat) with hlt | hge
      · exact segment_readable h (by omega)
      · show HostPtr.readable _ (0 + ph.pFilesz.toNat - 4096 * i) = true
        rw [Nat.sub_eq_zero_of_le hge]
        rfl
  rw [ELFFile.requestFor, pageRequest, if_pos hcopy]
  intro _
  rw [pageSource, if_neg hnot, hal, hspan]
  split
  · exact segment_readable h (by omega)
  · split
    · exact HostPtr.readable_ofBytes _ _
    · exact HostPtr.readable_ofBytes _ _

end InFile

/-! ### Page-aligned segments -/

/-- A page-aligned, non-empty `PT_LOAD` header inside the file. -/
structure ElfPhdr.Aligned (ph : ElfPhdr) (file : List Byte) : Prop where
  aligned : ph.pVaddr.toNat % 4096 = 0
  nonempty : 0 < ph.pMemsz.toNat
  inFile : ph.InFile file
  size : ph.pFilesz.toNat ≤ ph.pMemsz.toNat
  no_wrap : ph.pVaddr.toNat + ph.pMemsz.toNat + 4096 < 18446744073709551616

/-- The page numbers an aligned segment occupies. -/
def ElfPhdr.occupied (ph : ElfPhdr) : List ℕ :=
  (List.range ((ph.pMemsz.toNat + 4095) / 4096)).map fun i =>
    (ph.pVaddr.toNat / 4096 + i) % 134217728

section Aligned

variable {elf : ELFFile} {ph : ElfPhdr}

theorem ElfPhdr.Aligned.ends (h : ph.Aligned elf.file) : ph.Ends := by
  have h1 := h.no_wrap
  have h2 := h.size
  exact ⟨by omega, by omega⟩

theorem ElfPhdr.Aligned.fileSpan (h : ph.Aligned elf.file) : ph.fileSpan = ph.pFilesz.toNat :=
  if_neg fun hc => hc.1 h.aligned

theorem ElfPhdr.Aligned.pageCount (h : ph.Aligned elf.file) :
    ph.pageCount = (ph.pMemsz.toNat + 4095) / 4096 := by
  rw [ElfPhdr.pageCount, h.fileSpan, max_eq_right h.size, show ph.pageOffset = 0 from h.aligned,
    Nat.zero_add]

/-- The page numbers an image of aligned segments occupies. -/
theorem occupied_eq (hload : ∀ ph ∈ elf.loads, ph.Aligned elf.file) :
    elf.loads.flatMap ElfPhdr.occupied = elf.segmentPages.map pageNumber := by
  rw [ELFFile.segmentPages, List.map_flatMap]
  refine List.flatMap_congr fun ph hph => ?_
  rw [ElfPhdr.occupied, ← (hload ph hph).pageCount, List.map_map]
  rfl

/-- Loading an image of aligned segments comes back. -/
theorem loaded_returns (hends : ∀ ph ∈ elf.loads, ph.Ends)
    (hin : ∀ ph ∈ elf.loads, ph.InFile elf.file) (hal : ∀ ph ∈ elf.loads, ph.pageOffset = 0)
    (a : AddressSpace) : (elf.loaded a).1 = .ok ⟨⟩ := by
  refine AddressSpace.run_returns elf.dataRequests_valid (fun r hr => ?_) _
  rw [ELFFile.dataRequests_eq hends] at hr
  obtain ⟨x, hx, rfl⟩ := List.mem_map.mp hr
  obtain ⟨hph, _⟩ := ELFFile.mem_segmentPages.mp hx
  exact requestFor_aligned (hin _ hph) (hal _ hph) x.2

/-- The only page with a number, when all pages have different numbers. -/
theorem pageFor_of_nodup (hnodup : (elf.segmentPages.map pageNumber).Nodup) {x : ElfPhdr × ℕ}
    (hx : x ∈ elf.segmentPages) : elf.pageFor (pageNumber x) = some x := by
  rcases hf : elf.pageFor (pageNumber x) with _ | y
  · have := List.find?_eq_none.mp hf x hx
    simp at this
  · have hy := List.mem_of_find?_eq_some hf
    have hk : pageNumber y = pageNumber x := by simpa using List.find?_some hf
    rw [List.inj_on_of_nodup_map hnodup hy hx hk]

/-- The page of an image that an address of a segment lies in. -/
theorem segmentPage_of_address {x : Vaddr} (hlo : ph.pVaddr.toNat ≤ x.toNat)
    (hhi : x.toNat < 4096 * (ph.startPage + ph.pageCount)) :
    ∃ i, i < ph.pageCount ∧ x.toNat / 4096 = ph.startPage + i ∧
      pageNumber (ph, i) = vpn x := by
  have hv := ph.pVaddr_eq
  refine ⟨x.toNat / 4096 - ph.startPage, by omega, by omega, ?_⟩
  rw [pageNumber, vpn, show ph.startPage + (x.toNat / 4096 - ph.startPage) = x.toNat / 4096 by
    omega]

/-- What `loadELF` reports, with whatever it left in `*data_start`. -/
def reports (m : Loader (KeystoneStatus × Vaddr)) (s : Keystone) (status : KeystoneStatus) :
    Prop := ∃ dataStart, (exec m s).1 = .ok (status, dataStart)

/-- **Page-aligned segments on different pages are loaded without loss**: every
byte from the file and every zero behind them reads back through the page table,
no other page appears, and no page changes that was there before. -/
theorem loadELF_aligned (L : Layout) (s : Keystone) (hs : Reachable L s) (elf : ELFFile)
    (dataStart : Vaddr) (hload : ∀ ph ∈ elf.loads, ph.Aligned elf.file)
    (hdisjoint : (elf.loads.flatMap ElfPhdr.occupied).Nodup)
    (hunmapped : ∀ va, vpn va ∈ elf.loads.flatMap ElfPhdr.occupied → s.pteAt va = none)
    (hin : InBuffers L (exec (loadELF elf dataStart) s).2) :
    reports (loadELF elf dataStart) s .keystoneSuccess ∧
      let s' := (exec (loadELF elf dataStart) s).2
      (∀ ph ∈ elf.loads, ∀ x : Vaddr,
        (ph.pVaddr.toNat ≤ x.toNat → x.toNat < ph.pVaddr.toNat + ph.pFilesz.toNat →
          s'.byteAt x = elf.file[ph.pOffset.toNat + (x.toNat - ph.pVaddr.toNat)]? ∧
            (s'.byteAt x).isSome) ∧
        (ph.pVaddr.toNat + ph.pFilesz.toNat ≤ x.toNat →
          x.toNat < (ph.pVaddr.toNat + ph.pMemsz.toNat + 4095) / 4096 * 4096 →
          s'.byteAt x = some 0)) ∧
      (∀ va, s.pteAt va = none → vpn va ∉ elf.loads.flatMap ElfPhdr.occupied →
        s'.pteAt va = none) ∧
      (∀ va pte, s.pteAt va = some pte → s'.pteAt va = some pte ∧ s'.byteAt va = s.byteAt va) := by
  obtain ⟨a, hr⟩ := hs.repr
  have hends : ∀ ph ∈ elf.loads, ph.Ends := fun ph hph => (hload ph hph).ends
  have hret := loaded_returns hends (fun ph hph => (hload ph hph).inFile)
    (fun ph hph => (hload ph hph).aligned) a
  have hok : elf.loaded a = (.ok ⟨⟩, (elf.loaded a).2) := Prod.ext hret rfl
  obtain ⟨hstatus, hr'⟩ := loadELF_represents hr elf dataStart hin
  rw [hret] at hstatus
  rw [occupied_eq hload] at hdisjoint hunmapped ⊢
  have hnone : ∀ va, s.pteAt va = none → a.leaf (vpn va) = none := by
    intro va h
    rw [pteAt_eq hr] at h
    exact Option.map_eq_none_iff.mp h
  -- what page `i` of a segment holds
  have hpage : ∀ ph ∈ elf.loads, ∀ x : Vaddr, ph.pVaddr.toNat ≤ x.toNat →
      x.toNat < 4096 * (ph.startPage + ph.pageCount) →
        (exec (loadELF elf dataStart) s).2.byteAt x =
          some (if x.toNat < ph.pVaddr.toNat + ph.pFilesz.toNat then
            (elf.getProgramSegment ph).bytes (x.toNat - ph.pVaddr.toNat) else 0) := by
    intro ph hph x hlo hhi
    obtain ⟨i, hi, hx, hnum⟩ := segmentPage_of_address hlo hhi
    have hmem : (ph, i) ∈ elf.segmentPages := ELFFile.mem_segmentPages.mpr ⟨hph, hi⟩
    have hfor := pageFor_of_nodup hdisjoint hmem
    have hun := hunmapped x (hnum ▸ List.mem_map_of_mem hmem)
    have hleaf := ELFFile.loaded_leaf hends hok (hnone x hun)
    rw [← hnum, hfor] at hleaf
    obtain ⟨lf, hl, _, _, hby⟩ := hleaf
    rw [byteAt_eq hr', ← hnum, hl, Option.map_some, hby _ (Nat.mod_lt _ (by decide)),
      ELFFile.pageBytes, (hload ph hph).fileSpan, pageByte, if_neg fun hc => hc.1 (hload ph hph).aligned]
    have hv := ph.pVaddr_eq
    have hal : ph.pageOffset = 0 := (hload ph hph).aligned
    rw [hal] at hv ⊢
    have hsum : 4096 * i + x.toNat % 4096 = x.toNat - ph.pVaddr.toNat := by omega
    rw [hsum, Nat.sub_zero]
    by_cases hc : x.toNat < ph.pVaddr.toNat + ph.pFilesz.toNat
    · rw [if_pos hc, if_pos (by omega)]
    · rw [if_neg hc, if_neg (by omega)]
  refine ⟨⟨_, hstatus⟩, fun ph hph x => ⟨fun hlo hhi => ?_, fun hlo hhi => ?_⟩, ?_, ?_⟩
  · have hsize := (hload ph hph).size
    have hv := ph.pVaddr_eq
    have hcount := (hload ph hph).pageCount
    have hal : ph.pageOffset = 0 := (hload ph hph).aligned
    rw [hpage ph hph x hlo (by omega), if_pos hhi,
      segment_bytes (hload ph hph).inFile (by omega)]
    refine ⟨rfl, ?_⟩
    rw [← segment_bytes (hload ph hph).inFile (by omega)]
    rfl
  · have hv := ph.pVaddr_eq
    have hcount := (hload ph hph).pageCount
    have hal : ph.pageOffset = 0 := (hload ph hph).aligned
    rw [hpage ph hph x (by omega) (by omega), if_neg (by omega)]
  · intro va hva hnot
    have hleaf := ELFFile.loaded_leaf hends hok (hnone va hva)
    have hfor : elf.pageFor (vpn va) = none := by
      refine List.find?_eq_none.mpr fun x hx => ?_
      have hne : pageNumber x ≠ vpn va := fun he => hnot (he ▸ List.mem_map_of_mem hx)
      simpa using hne
    rw [hfor] at hleaf
    rw [pteAt_eq hr', hleaf]
    rfl
  · intro va pte hva
    rw [pteAt_eq hr] at hva
    obtain ⟨lf, hl, rfl⟩ := Option.map_eq_some_iff.mp hva
    have hl' := ELFFile.loaded_leaf_mono elf hl
    rw [pteAt_eq hr', byteAt_eq hr', byteAt_eq hr, hl, hl']
    exact ⟨rfl, rfl⟩

end Aligned

/-! ### Segments anywhere in a page -/

/-- A `PT_LOAD` header with an address range that does not wrap and a file range
inside the file. -/
structure ElfPhdr.Segment (ph : ElfPhdr) (file : List Byte) : Prop where
  inFile : ph.InFile file
  size : ph.pFilesz.toNat ≤ ph.pMemsz.toNat
  no_wrap : ph.pVaddr.toNat + ph.pMemsz.toNat < 18446744073709551616

/-- The bytes `byte` has are those the segments of the image ask for: the bytes
of the file, and zeros behind them. -/
def ELFFile.WithoutLoss (elf : ELFFile) (byte : Vaddr → Option Byte) : Prop :=
  ∀ ph ∈ elf.loads, ∀ x : Vaddr,
    (ph.pVaddr.toNat ≤ x.toNat → x.toNat < ph.pVaddr.toNat + ph.pFilesz.toNat →
      byte x = elf.file[ph.pOffset.toNat + (x.toNat - ph.pVaddr.toNat)]?) ∧
    (ph.pVaddr.toNat + ph.pFilesz.toNat ≤ x.toNat →
      x.toNat < ph.pVaddr.toNat + ph.pMemsz.toNat → byte x = some 0)

/-- A successful load left behind the first page with its number. -/
theorem byteAt_loaded {L : Layout} {s : Keystone} {a : AddressSpace} (hr : Repr L s a)
    {elf : ELFFile} {dataStart : Vaddr} (hload : ∀ ph ∈ elf.loads, ph.Segment elf.file)
    (hin : InBuffers L (exec (loadELF elf dataStart) s).2)
    (hsuccess : reports (loadELF elf dataStart) s .keystoneSuccess) {x : Vaddr}
    (hnone : s.pteAt x = none) :
    (exec (loadELF elf dataStart) s).2.byteAt x = elf.firstPageByte x := by
  obtain ⟨hstatus, hr'⟩ := loadELF_represents hr elf dataStart hin
  obtain ⟨d, hd⟩ := hsuccess
  rw [hd] at hstatus
  have hret : (elf.loaded a).1 = .ok ⟨⟩ := by
    rcases hx : (elf.loaded a).1 with e | u
    · rw [hx] at hstatus
      cases hstatus
    · rfl
  have hok : elf.loaded a = (.ok ⟨⟩, (elf.loaded a).2) := Prod.ext hret rfl
  have hends : ∀ ph ∈ elf.loads, ph.Ends := by
    intro ph hph
    have h1 := (hload ph hph).size
    have h2 := (hload ph hph).no_wrap
    exact ends_of_loaded hok hph (by omega) h2
  rw [pteAt_eq hr] at hnone
  have hleaf := ELFFile.loaded_leaf hends hok (Option.map_eq_none_iff.mp hnone)
  rw [byteAt_eq hr', ELFFile.firstPageByte]
  rcases hp : elf.pageFor (vpn x) with _ | y <;> rw [hp] at hleaf
  · rw [hleaf]
    rfl
  · obtain ⟨lf, hl, _, _, hby⟩ := hleaf
    rw [hl, Option.map_some, Option.map_some, hby _ (Nat.mod_lt _ (by decide))]

/-- The byte the segment asks for at an address: a byte of the file, or zero. -/
def ELFFile.wantedByte (elf : ELFFile) (ph : ElfPhdr) (x : Vaddr) : Byte :=
  if x.toNat < ph.pVaddr.toNat + ph.pFilesz.toNat then
    elf.file.getD (ph.pOffset.toNat + (x.toNat - ph.pVaddr.toNat)) 0
  else 0

/-- Wherever a segment asks for a byte, the first page of the image with the
number of that byte's page has it: this segment starts the page and does not
overfill it, or the segment that does start it happens to agree. -/
def ELFFile.PagesAgree (elf : ELFFile) : Prop :=
  ∀ ph ∈ elf.loads, ∀ x : Vaddr, ph.pVaddr.toNat ≤ x.toNat →
    x.toNat < ph.pVaddr.toNat + ph.pMemsz.toNat →
      ∀ y, elf.pageFor (vpn x) = some y →
        elf.pageBytes y (x.toNat % 4096) = elf.wantedByte ph x

/-- A page of a segment is a page of the image. -/
theorem pageFor_isSome {elf : ELFFile} {ph : ElfPhdr} (hph : ph ∈ elf.loads) {x : Vaddr}
    (hlo : ph.pVaddr.toNat ≤ x.toNat) (hhi : x.toNat < ph.pVaddr.toNat + ph.pMemsz.toNat) :
    ∃ y, elf.pageFor (vpn x) = some y := by
  have hv := ph.pVaddr_eq
  have hcount : ph.pageCount = (ph.pageOffset + max ph.fileSpan ph.pMemsz.toNat + 4095) / 4096 :=
    rfl
  obtain ⟨i, hi, _, hnum⟩ := segmentPage_of_address hlo (by omega)
  have hmem : (ph, i) ∈ elf.segmentPages := ELFFile.mem_segmentPages.mpr ⟨hph, hi⟩
  refine Option.isSome_iff_exists.mp (List.find?_isSome.mpr ⟨(ph, i), hmem, ?_⟩)
  simpa using hnum

/-- Bytes are without loss when each is the byte its segment asks for. -/
theorem withoutLoss_iff {elf : ELFFile} (hload : ∀ ph ∈ elf.loads, ph.Segment elf.file)
    (byte : Vaddr → Option Byte) :
    elf.WithoutLoss byte ↔ ∀ ph ∈ elf.loads, ∀ x : Vaddr, ph.pVaddr.toNat ≤ x.toNat →
      x.toNat < ph.pVaddr.toNat + ph.pMemsz.toNat → byte x = some (elf.wantedByte ph x) := by
  refine forall_congr' fun ph => forall_congr' fun hph => forall_congr' fun x => ?_
  have hsize := (hload ph hph).size
  have hfile : ph.pVaddr.toNat ≤ x.toNat → x.toNat < ph.pVaddr.toNat + ph.pFilesz.toNat →
      elf.file[ph.pOffset.toNat + (x.toNat - ph.pVaddr.toNat)]? = some (elf.wantedByte ph x) := by
    intro hlo hhi
    have hin := (hload ph hph).inFile.inside
    rw [ELFFile.wantedByte, if_pos hhi, List.getD_eq_getElem?_getD,
      List.getElem?_eq_getElem (by omega)]
    rfl
  constructor
  · rintro ⟨h1, h2⟩ hlo hhi
    by_cases hx : x.toNat < ph.pVaddr.toNat + ph.pFilesz.toNat
    · rw [h1 hlo hx, hfile hlo hx]
    · rw [h2 (by omega) hhi, ELFFile.wantedByte, if_neg hx]
  · intro h
    refine ⟨fun hlo hhi => ?_, fun hlo hhi => ?_⟩
    · rw [h hlo (by omega), hfile hlo hhi]
    · rw [h (by omega) hhi, ELFFile.wantedByte, if_neg (by omega)]

/-- **When misaligned segments are loaded without loss**: a load that reports
success leaves every byte of every segment behind exactly when the pages of the
image agree.  The page a segment starts in is filled from the file up to its
end, even behind the end of the segment, and a page that a later segment shares
is not filled again. -/
theorem loadELF_misaligned_iff (L : Layout) (s : Keystone) (hs : Reachable L s) (elf : ELFFile)
    (dataStart : Vaddr) (hload : ∀ ph ∈ elf.loads, ph.Segment elf.file)
    (hunmapped : ∀ ph ∈ elf.loads, ∀ x : Vaddr, ph.pVaddr.toNat ≤ x.toNat →
      x.toNat < ph.pVaddr.toNat + ph.pMemsz.toNat → s.pteAt x = none)
    (hin : InBuffers L (exec (loadELF elf dataStart) s).2)
    (hsuccess : reports (loadELF elf dataStart) s .keystoneSuccess) :
    elf.WithoutLoss (exec (loadELF elf dataStart) s).2.byteAt ↔ elf.PagesAgree := by
  obtain ⟨a, hr⟩ := hs.repr
  rw [withoutLoss_iff hload]
  refine forall_congr' fun ph => forall_congr' fun hph => forall_congr' fun x =>
    forall_congr' fun hlo => forall_congr' fun hhi => ?_
  obtain ⟨y, hy⟩ := pageFor_isSome hph hlo hhi
  rw [byteAt_loaded hr hload hin hsuccess (hunmapped ph hph x hlo hhi), ELFFile.firstPageByte, hy,
    Option.map_some, Option.some_inj]
  constructor
  · rintro h y' hy'
    cases hy'
    exact h
  · intro h
    exact h y rfl

/-! ### Two small images -/

/-- One page-aligned segment: four bytes of the file, and two pages in all. -/
def alignedElf : ELFFile where
  file := [1, 2, 3, 4, 5, 6, 7, 8]
  beyond := HostPtr.null
  entryPoint := 0x10000#64
  phdrs := [⟨ptLoad, 2#64, 0x10000#64, 4#64, 0x1800#64⟩]
  minVaddr := 0x10000#64
  maxVaddr := 0x12000#64
  isRuntime := false

theorem smallState_unmapped (va : Vaddr) : smallState.pteAt va = none := by
  rw [pteAt_eq (Repr.of_initial smallState_initial)]
  rfl

theorem alignedElf_pages :
    (exec (loadELF alignedElf 0#64) smallState).2.epmPages =
        [0x10000#64, 0x11000#64, 0x12000#64, 0x13000#64, 0x14000#64] ∧
      (exec (loadELF alignedElf 0#64) smallState).2.utmPages = [] := by
  decide +kernel

theorem loadELF_aligned_small :
    reports (loadELF alignedElf 0#64) smallState .keystoneSuccess ∧
      (exec (loadELF alignedElf 0#64) smallState).2.byteAt 0x10001#64 = some 4 ∧
      (exec (loadELF alignedElf 0#64) smallState).2.byteAt 0x11fff#64 = some 0 := by
  have hloads : alignedElf.loads = [⟨ptLoad, 2#64, 0x10000#64, 4#64, 0x1800#64⟩] := by decide
  have hload : ∀ ph ∈ alignedElf.loads, ph.Aligned alignedElf.file := by
    rw [hloads]
    rintro ph (_ | ⟨_, hph⟩)
    · exact ⟨by decide, by decide, ⟨by decide, by decide⟩, by decide, by decide⟩
    · cases hph
  have h := loadELF_aligned smallLayout smallState smallState_reachable alignedElf 0#64 hload
    (by rw [hloads]; decide) (fun va _ => smallState_unmapped va)
    (inBuffers_of_pages alignedElf_pages.1 alignedElf_pages.2 (by decide) (by decide))
  refine ⟨h.1, ?_, ?_⟩
  · exact ((h.2.1 _ (by rw [hloads]; exact List.mem_singleton.mpr rfl) 0x10001#64).1
      (by decide) (by decide)).1
  · exact (h.2.1 _ (by rw [hloads]; exact List.mem_singleton.mpr rfl) 0x11fff#64).2
      (by decide) (by decide)

/-- The headers of a file with two segments in one page. -/
def sharedPhdrs : List ElfPhdr :=
  [⟨ptLoad, 176#64, 0x10000#64, 4#64, 4#64⟩, ⟨ptLoad, 178#64, 0x10800#64, 2#64, 2#64⟩]

def sharedFile : List Byte := elf64Bytes 0x10000#64 sharedPhdrs [1#8, 2#8, 3#8, 4#8]

/-- The rest of the page a short file is mapped to reads as zeros. -/
def restOfPage (file : List Byte) : HostPtr := fun i =>
  if file.length + i < 4096 then some 0 else none

/-- `sharedFile`, as `ELFFile` holds it. -/
def sharedElf : ELFFile where
  file := sharedFile
  beyond := restOfPage sharedFile
  entryPoint := 0x10000#64
  phdrs := sharedPhdrs
  minVaddr := 0x10000#64
  maxVaddr := 0x11000#64
  isRuntime := false

theorem sharedElf_accepted :
    ELFFile.initialize sharedFile (restOfPage sharedFile) false = some sharedElf := by
  have helf : elfNewFile sharedFile = some ⟨0x10000#64, sharedPhdrs⟩ := by decide +kernel
  exact ELFFile.initialize_some _ false (by decide +kernel) helf (by decide +kernel)

theorem sharedElf_pages :
    (exec (loadELF sharedElf 0#64) smallState).2.epmPages =
        [0x10000#64, 0x11000#64, 0x12000#64, 0x13000#64] ∧
      (exec (loadELF sharedElf 0#64) smallState).2.utmPages = [] := by
  decide +kernel

theorem sharedElf_segment : ∀ ph ∈ sharedElf.loads, ph.Segment sharedElf.file := by
  have hlen : sharedElf.file.length = 180 := by decide +kernel
  have hloads : sharedElf.loads = sharedPhdrs := by decide +kernel
  rw [hloads]
  intro ph hph
  rcases List.mem_cons.mp hph with rfl | hph
  · exact ⟨⟨by rw [hlen]; decide, by decide⟩, by decide, by decide⟩
  · rw [List.mem_singleton.mp hph]
    exact ⟨⟨by rw [hlen]; decide, by decide⟩, by decide, by decide⟩

theorem sharedElf_inBuffers : InBuffers smallLayout (exec (loadELF sharedElf 0#64) smallState).2 :=
  inBuffers_of_pages sharedElf_pages.1 sharedElf_pages.2 (by decide) (by decide)

theorem sharedElf_success : reports (loadELF sharedElf 0#64) smallState .keystoneSuccess :=
  ⟨0x13000#64, by decide +kernel⟩

/-- The second segment of `sharedFile` is lost, although the load reports
success: its page exists already, so nothing is written. -/
theorem loadELF_shared_page_loses :
    ELFFile.initialize sharedFile (restOfPage sharedFile) false = some sharedElf ∧
      (∀ ph ∈ sharedElf.loads, ph.Segment sharedElf.file) ∧
      (sharedElf.loads.Pairwise fun p q => p.pVaddr.toNat + p.pMemsz.toNat ≤ q.pVaddr.toNat) ∧
      (∃ ph ∈ sharedElf.loads, ph.pVaddr.toNat % 4096 ≠ 0) ∧
      Reachable smallLayout smallState ∧ (∀ va, smallState.pteAt va = none) ∧
      InBuffers smallLayout (exec (loadELF sharedElf 0#64) smallState).2 ∧
      reports (loadELF sharedElf 0#64) smallState .keystoneSuccess ∧
      ¬ sharedElf.WithoutLoss (exec (loadELF sharedElf 0#64) smallState).2.byteAt := by
  refine ⟨sharedElf_accepted, sharedElf_segment, by decide +kernel, ?_, smallState_reachable,
    smallState_unmapped, sharedElf_inBuffers, sharedElf_success, fun h => ?_⟩
  · exact ⟨⟨ptLoad, 178#64, 0x10800#64, 2#64, 2#64⟩, by decide +kernel, by decide⟩
  · have hread : (exec (loadELF sharedElf 0#64) smallState).2.byteAt 0x10800#64 = some 0 := by
      decide +kernel
    have hbyte := (h ⟨ptLoad, 178#64, 0x10800#64, 2#64, 2#64⟩ (by decide +kernel) 0x10800#64).1
      (by decide) (by decide)
    rw [hread] at hbyte
    revert hbyte
    decide +kernel

theorem loadELF_misaligned_iff_shared :
    sharedElf.WithoutLoss (exec (loadELF sharedElf 0#64) smallState).2.byteAt ↔
      sharedElf.PagesAgree :=
  loadELF_misaligned_iff smallLayout smallState smallState_reachable sharedElf 0#64
    sharedElf_segment (fun _ _ x _ _ => smallState_unmapped x) sharedElf_inBuffers
    sharedElf_success

end KeystoneSdk
