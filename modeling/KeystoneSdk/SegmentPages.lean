/-
The pages of a segment.

The three loops of `loadELF` walk over a segment page by page.  `pageRequest`
says what they ask for at page `i`, counted from the page the segment starts
in, and `segmentRequests_eq` that this is all they ask for.

* `ElfPhdr.pageCount` — how many pages a segment occupies;
* `pageByte` — what its page `i` holds;
* `segmentRequests_eq` — the requests of a segment, page by page;
* `diverges_of_fileEnd`, `diverges_of_memoryEnd` — a segment that reaches into
  the last page of the address space is never loaded.
-/
import KeystoneSdk.LoadRequests

open ByteMemory StopM

namespace KeystoneSdk

/-! ### Page numbers -/

theorem vpn_frameAddr {p o : ℕ} (ho : o < 4096) : vpn (frameAddr p o) = p % 134217728 := by
  rw [vpn, frameAddr, BitVec.toNat_ofNat]
  omega

/-- An address is a byte of its page. -/
theorem eq_frameAddr (x : Vaddr) : x = frameAddr (x.toNat / 4096) (x.toNat % 4096) := by
  rw [frameAddr, Nat.div_add_mod, BitVec.ofNat_toNat, BitVec.setWidth_eq]

theorem HostPtr.add_add (src : HostPtr) (m n : ℕ) : (src.add m).add n = src.add (m + n) := by
  funext i
  rw [HostPtr.add, HostPtr.add, HostPtr.add, Nat.add_assoc]

theorem HostPtr.add_zero (src : HostPtr) : src.add 0 = src := by
  funext i
  rw [HostPtr.add, Nat.zero_add]

/-! ### The shape of a segment -/

namespace ElfPhdr

/-- The number of the page the segment starts in. -/
def startPage (ph : ElfPhdr) : ℕ := ph.pVaddr.toNat / 4096

/-- Where in that page it starts. -/
def pageOffset (ph : ElfPhdr) : ℕ := ph.pVaddr.toNat % 4096

/-- How much of the segment the loops take from the file.  When the first page
is misaligned and the next one is the last page of the address space, the bound
test of the first loop wraps, and the loop goes around the address space once. -/
def fileSpan (ph : ElfPhdr) : ℕ :=
  if ph.pageOffset ≠ 0 ∧ ph.startPage = 4503599627370494 then
    ph.pFilesz.toNat + 18446744073709551616
  else ph.pFilesz.toNat

/-- The number of pages the loops walk over. -/
def pageCount (ph : ElfPhdr) : ℕ :=
  (ph.pageOffset + max ph.fileSpan ph.pMemsz.toNat + 4095) / 4096

/-- The segment ends before the last page of the address space. -/
structure Ends (ph : ElfPhdr) : Prop where
  file : ph.pVaddr.toNat + ph.pFilesz.toNat + 4096 < 18446744073709551616
  memory : ph.pVaddr.toNat + ph.pMemsz.toNat + 4096 ≤ 18446744073709551616

end ElfPhdr

/-- The source of page `i` of a segment with `size` bytes at `src`, from offset
`off` of its first page on. -/
def pageSource (src : HostPtr) (off size i : ℕ) : HostPtr :=
  if off ≠ 0 ∧ i = 0 then
    HostPtr.ofBytes fun o =>
      if off ≤ o ∧ o < off + (4096 - off) then src.bytes (o - off) else 0
  else if 4096 * (i + 1) ≤ off + size then src.add (4096 * i - off)
  else if 4096 * i < off + size then
    HostPtr.ofBytes fun o =>
      if 0 ≤ o ∧ o < 0 + (off + size - 4096 * i) then (src.add (4096 * i - off)).bytes (o - 0)
      else 0
  else nullpage

/-- How many bytes the loader copies from the file into a buffer of its own
before it asks for page `i`, and from where. -/
def pageCopy (off size i : ℕ) : ℕ × ℕ :=
  if off ≠ 0 ∧ i = 0 then (0, 4096 - off)
  else if 4096 * (i + 1) ≤ off + size then (0, 0)
  else (4096 * i - off, off + size - 4096 * i)

/-- What the loops of `loadELF` ask for at page `i` of a segment. -/
def pageRequest (mode : BitVec 32) (start : ℕ) (src : HostPtr) (off size i : ℕ) : Request :=
  if (src.add (pageCopy off size i).1).readable (pageCopy off size i).2 then
    .alloc (frameAddr (start + i) 0) .epm (pageSource src off size i) mode
  else .stop .segfault

/-- Byte `o` of page `i` of a segment. -/
def pageByte (src : HostPtr) (off size i o : ℕ) : Byte :=
  if off ≠ 0 ∧ i = 0 then
    if off ≤ o then src.bytes (o - off) else 0
  else if 4096 * i + o < off + size then src.bytes (4096 * i + o - off)
  else 0

theorem pageSource_bytes (src : HostPtr) {off size i o : ℕ} (hoff : off < 4096) (ho : o < 4096) :
    (pageSource src off size i).bytes o = pageByte src off size i o := by
  rw [pageSource, pageByte]
  by_cases h0 : off ≠ 0 ∧ i = 0
  · rw [if_pos h0, if_pos h0, HostPtr.bytes_ofBytes]
    by_cases h : off ≤ o
    · rw [if_pos h, if_pos ⟨h, by omega⟩]
    · rw [if_neg h, if_neg (fun hh => h hh.1)]
  · -- behind the first page the offset only shifts the file; which bytes there are is a
    -- question of where the page ends
    rw [if_neg h0, if_neg h0]
    have hle : off ≤ 4096 * i ∨ (off = 0 ∧ i = 0) := by omega
    have hadd : (src.add (4096 * i - off)).bytes o = src.bytes (4096 * i + o - off) := by
      rw [HostPtr.bytes, HostPtr.bytes, HostPtr.add]
      congr 2
      omega
    by_cases h1 : 4096 * (i + 1) ≤ off + size
    · rw [if_pos h1, if_pos (by omega), hadd]
    · rw [if_neg h1]
      by_cases h2 : 4096 * i < off + size
      · rw [if_pos h2, HostPtr.bytes_ofBytes]
        by_cases h3 : 4096 * i + o < off + size
        · rw [if_pos h3, if_pos (by omega), Nat.sub_zero, hadd]
        · rw [if_neg h3, if_neg (by omega)]
      · rw [if_neg h2, if_neg (by omega)]
        rfl

/-! ### The loops -/

section Loops

variable {mode : BitVec 32}

theorem frameAddr_toNat_mod (p : ℕ) : (frameAddr p 0).toNat = 4096 * (p % 4503599627370496) := by
  rw [frameAddr, BitVec.toNat_ofNat]
  omega

/-- The loop over full pages, when its test holds for `m` pages and then fails. -/
theorem fullPages_eq {fileEnd : Vaddr} {m n p : ℕ} (src : HostPtr) (hn : m < n)
    (hlt : ∀ j, j < m → frameAddr (p + j) 0 + pageSize ≤ fileEnd)
    (hend : ¬ frameAddr (p + m) 0 + pageSize ≤ fileEnd) :
    fullPages mode fileEnd n (frameAddr p 0) src =
      ((List.range m).map fun j => .alloc (frameAddr (p + j) 0) .epm (src.add (4096 * j)) mode,
        frameAddr (p + m) 0, src.add (4096 * m)) := by
  -- on the pages that are left: one round goes on to the next page and its bytes
  induction m generalizing n p src with
  | zero =>
    obtain ⟨n, rfl⟩ := Nat.exists_eq_succ_of_ne_zero (show n ≠ 0 by omega)
    rw [Nat.add_zero] at hend ⊢
    rw [fullPages, if_neg hend, Nat.mul_zero, HostPtr.add_zero]
    rfl
  | succ m ih =>
    obtain ⟨n, rfl⟩ := Nat.exists_eq_succ_of_ne_zero (show n ≠ 0 by omega)
    have hstep : ∀ j, p + 1 + j = p + (j + 1) := fun j => by omega
    have hadd : ∀ j, (src.add 4096).add (4096 * j) = src.add (4096 * (j + 1)) := fun j => by
      rw [HostPtr.add_add]
      congr 1
      omega
    have h0 := hlt 0 (by omega)
    rw [Nat.add_zero] at h0
    rw [fullPages, if_pos h0, frameAddr_add_pageSize,
      ih (src.add 4096) (by omega) (fun j hj => hstep j ▸ hlt (j + 1) (by omega)) (hstep m ▸ hend),
      List.range_succ_eq_map, List.map_cons, List.map_map, hadd, hstep]
    simp only [hstep, hadd, Nat.mul_zero, HostPtr.add_zero, Nat.add_zero]
    rfl

/-- The loop over .bss pages, when its test holds for `m` pages and then fails. -/
theorem bssPages_eq {memoryEnd : Vaddr} {m n p : ℕ} (hn : m < n)
    (hlt : ∀ j, j < m → frameAddr (p + j) 0 < memoryEnd)
    (hend : ¬ frameAddr (p + m) 0 < memoryEnd) :
    bssPages mode memoryEnd n (frameAddr p 0) =
      (List.range m).map fun j => .alloc (frameAddr (p + j) 0) .epm nullpage mode := by
  induction m generalizing n p with
  | zero =>
    obtain ⟨n, rfl⟩ := Nat.exists_eq_succ_of_ne_zero (show n ≠ 0 by omega)
    rw [Nat.add_zero] at hend
    rw [bssPages, if_neg hend]
    rfl
  | succ m ih =>
    obtain ⟨n, rfl⟩ := Nat.exists_eq_succ_of_ne_zero (show n ≠ 0 by omega)
    have hstep : ∀ j, p + 1 + j = p + (j + 1) := fun j => by omega
    have h0 := hlt 0 (by omega)
    rw [Nat.add_zero] at h0
    rw [bssPages, if_pos h0, frameAddr_add_pageSize,
      ih (by omega) (fun j hj => hstep j ▸ hlt (j + 1) (by omega)) (hstep m ▸ hend),
      List.range_succ_eq_map, List.map_cons, List.map_map]
    simp only [hstep, Nat.add_zero]
    rfl

/-- The loop over full pages never ends when the file part reaches into the
last page of the address space. -/
theorem diverges_of_fileEnd {fileEnd : Vaddr}
    (h : 18446744073709551616 ≤ fileEnd.toNat + 4096) (n p : ℕ) (src : HostPtr) :
    .stop .diverges ∈ (fullPages mode fileEnd n (frameAddr p 0) src).1 := by
  induction n generalizing p src with
  | zero => exact List.mem_singleton.mpr rfl
  | succ n ih =>
    have hle : frameAddr p 0 + pageSize ≤ fileEnd := by
      rw [frameAddr_add_pageSize, BitVec.le_def, frameAddr_toNat_mod]
      omega
    rw [fullPages, if_pos hle, frameAddr_add_pageSize]
    exact List.mem_cons_of_mem _ (ih _ _)

/-- The loop over .bss pages never ends when the segment ends inside the last
page of the address space. -/
theorem diverges_of_memoryEnd {memoryEnd : Vaddr}
    (h : 18446744073709551616 < memoryEnd.toNat + 4096) (n p : ℕ) :
    .stop .diverges ∈ bssPages mode memoryEnd n (frameAddr p 0) := by
  induction n generalizing p with
  | zero => exact List.mem_singleton.mpr rfl
  | succ n ih =>
    have hlt : frameAddr p 0 < memoryEnd := by
      rw [BitVec.lt_def, frameAddr_toNat_mod]
      omega
    rw [bssPages, if_pos hlt, frameAddr_add_pageSize]
    exact List.mem_cons_of_mem _ (ih _)

end Loops

/-! ### A whole segment -/

section Segment

variable {mode : BitVec 32} {ph : ElfPhdr}

/-- The page of the segment at which the loop over full pages starts. -/
def ElfPhdr.skip (ph : ElfPhdr) : ℕ := if ph.pageOffset = 0 then 0 else 1

theorem ElfPhdr.pVaddr_eq (ph : ElfPhdr) :
    ph.pVaddr.toNat = 4096 * ph.startPage + ph.pageOffset := by
  rw [ElfPhdr.startPage, ElfPhdr.pageOffset, Nat.div_add_mod]

theorem ElfPhdr.pageOffset_lt (ph : ElfPhdr) : ph.pageOffset < 4096 := Nat.mod_lt _ (by decide)

/-- The file span, by the case that wraps. -/
theorem ElfPhdr.fileSpan_cases (ph : ElfPhdr) :
    (ph.pageOffset ≠ 0 ∧ ph.startPage = 4503599627370494 ∧
        ph.fileSpan = ph.pFilesz.toNat + 18446744073709551616) ∨
      ((ph.pageOffset = 0 ∨ ph.startPage ≠ 4503599627370494) ∧
        ph.fileSpan = ph.pFilesz.toNat) := by
  rw [ElfPhdr.fileSpan]
  split
  · rename_i h
    exact Or.inl ⟨h.1, h.2, rfl⟩
  · rename_i h
    refine Or.inr ⟨?_, rfl⟩
    omega

/-- `PAGE_UP` is the start of the next page, for an address inside a page. -/
theorem pageUp_misaligned {x : Vaddr} (h : x.toNat % 4096 ≠ 0) :
    pageUp x = frameAddr (x.toNat / 4096 + 1) 0 := by
  apply BitVec.eq_of_toNat_eq
  rw [pageUp, roundUp_toNat, frameAddr_toNat_mod]
  omega

theorem pageDown_eq (x : Vaddr) : pageDown x = frameAddr (x.toNat / 4096) 0 := by
  apply BitVec.eq_of_toNat_eq
  have := x.isLt
  rw [pageDown, roundDown_toNat, frameAddr_toNat_mod]
  omega

theorem isAligned_false {x : Vaddr} (h : x.toNat % 4096 ≠ 0) : isAligned x pageSize = false := by
  rw [← Bool.not_eq_true, isAligned_iff]
  exact h

/-- The first stage: nothing for an aligned segment, page 0 for the others. -/
theorem firstPage_eq (ph : ElfPhdr) (src : HostPtr) :
    firstPage mode ph.pVaddr src =
      ((List.range ph.skip).map (pageRequest mode ph.startPage src ph.pageOffset ph.fileSpan),
        frameAddr (ph.startPage + ph.skip) 0, src.add (4096 * ph.skip - ph.pageOffset)) := by
  rw [firstPage, ElfPhdr.skip]
  by_cases h : ph.pageOffset = 0
  · have hal : isAligned ph.pVaddr pageSize = true := (isAligned_iff _).mpr h
    have hva : ph.pVaddr = frameAddr ph.startPage 0 := by
      conv_lhs => rw [eq_frameAddr ph.pVaddr]
      rw [show ph.pVaddr.toNat % 4096 = 0 from h]
      rfl
    rw [if_pos hal, if_pos h, h, Nat.add_zero, ← hva]
    exact congrArg (fun x => (([] : List Request), ph.pVaddr, x)) (HostPtr.add_zero src).symm
  · -- the bytes of the file start `pageOffset` bytes into the page
    have hal : isAligned ph.pVaddr pageSize ≠ true := by
      rw [isAligned_false h]
      exact Bool.false_ne_true
    have hoff : (ph.pVaddr - pageDown ph.pVaddr).toNat = ph.pageOffset := by
      have := ph.pVaddr.isLt
      rw [pageDown, BitVec.toNat_sub, roundDown_toNat, ElfPhdr.pageOffset]
      omega
    have hlen : (pageUp ph.pVaddr - ph.pVaddr).toNat = 4096 - ph.pageOffset := by
      have := ph.pVaddr.isLt
      have hne : ph.pVaddr.toNat % 4096 ≠ 0 := h
      rw [pageUp, BitVec.toNat_sub, roundUp_toNat, ElfPhdr.pageOffset]
      omega
    have hnext : ph.pVaddr + (pageUp ph.pVaddr - ph.pVaddr) = frameAddr (ph.startPage + 1) 0 := by
      rw [add_sub_cancel, pageUp_misaligned h]
      rfl
    have hone : (List.range 1).map (pageRequest mode ph.startPage src ph.pageOffset ph.fileSpan) =
        [pageRequest mode ph.startPage src ph.pageOffset ph.fileSpan 0] := rfl
    have hcopy : pageCopy ph.pageOffset ph.fileSpan 0 = (0, 4096 - ph.pageOffset) :=
      if_pos ⟨h, rfl⟩
    have hsource : pageSource src ph.pageOffset ph.fileSpan 0 = HostPtr.ofBytes fun o =>
        if ph.pageOffset ≤ o ∧ o < ph.pageOffset + (4096 - ph.pageOffset) then
          src.bytes (o - ph.pageOffset) else 0 := if_pos ⟨h, rfl⟩
    rw [if_neg hal, if_neg h, hone, pageRequest, hcopy, HostPtr.add_zero, hsource, Nat.mul_one,
      Nat.add_zero]
    simp only [hoff, hlen, hnext]
    rw [pageDown_eq]
    cases src.readable (4096 - ph.pageOffset) <;> rfl

theorem ElfPhdr.Ends.fileEnd (he : ph.Ends) :
    (ph.pVaddr + ph.pFilesz).toNat = ph.pVaddr.toNat + ph.pFilesz.toNat := by
  have := he.file
  rw [BitVec.toNat_add, Nat.mod_eq_of_lt (by omega)]

theorem ElfPhdr.Ends.memoryEnd (he : ph.Ends) :
    (ph.pVaddr + ph.pMemsz).toNat = ph.pVaddr.toNat + ph.pMemsz.toNat := by
  have := he.memory
  rw [BitVec.toNat_add, Nat.mod_eq_of_lt (by omega)]

/-- The page at which the loop over full pages stops. -/
def ElfPhdr.fullEnd (ph : ElfPhdr) : ℕ :=
  max ph.skip ((ph.pageOffset + ph.fileSpan) / 4096)

/-- The page at which the loop over .bss pages starts. -/
def ElfPhdr.fileEnd (ph : ElfPhdr) : ℕ :=
  if 4096 * ph.fullEnd < ph.pageOffset + ph.fileSpan then ph.fullEnd + 1 else ph.fullEnd

theorem ElfPhdr.skip_cases (ph : ElfPhdr) :
    (ph.pageOffset = 0 ∧ ph.skip = 0) ∨ (ph.pageOffset ≠ 0 ∧ ph.skip = 1) := by
  rw [ElfPhdr.skip]
  split
  · exact Or.inl ⟨‹_›, rfl⟩
  · exact Or.inr ⟨‹_›, rfl⟩

theorem ElfPhdr.fullEnd_cases (ph : ElfPhdr) :
    ph.fullEnd = ph.skip ∨ ph.fullEnd = (ph.pageOffset + ph.fileSpan) / 4096 := max_choice _ _

/-- The second stage: the full pages. -/
theorem fullPages_segment (he : ph.Ends) (src : HostPtr) :
    fullPages mode (ph.pVaddr + ph.pFilesz) loopRounds (frameAddr (ph.startPage + ph.skip) 0)
        (src.add (4096 * ph.skip - ph.pageOffset)) =
      ((List.range (ph.fullEnd - ph.skip)).map fun j =>
          pageRequest mode ph.startPage src ph.pageOffset ph.fileSpan (ph.skip + j),
        frameAddr (ph.startPage + ph.fullEnd) 0, src.add (4096 * ph.fullEnd - ph.pageOffset)) := by
  have hv := ph.pVaddr_eq
  have hoff := ph.pageOffset_lt
  have hfe := he.fileEnd
  have hfile := he.file
  have hskip := ph.skip_cases
  have hspan := ph.fileSpan_cases
  have hle : ph.skip ≤ ph.fullEnd := le_max_left _ _
  have hfull := ph.fullEnd_cases
  have hge : (ph.pageOffset + ph.fileSpan) / 4096 ≤ ph.fullEnd := le_max_right _ _
  have hend : ph.skip + (ph.fullEnd - ph.skip) = ph.fullEnd := by omega
  -- the test of the loop, without a wrap: the end of page `j` against the end of the file part
  have htest : ∀ j, frameAddr (ph.startPage + ph.skip + j) 0 + pageSize ≤ ph.pVaddr + ph.pFilesz ↔
      4096 * ((ph.startPage + ph.skip + j + 1) % 4503599627370496) ≤
        ph.pVaddr.toNat + ph.pFilesz.toNat := by
    intro j
    rw [frameAddr_add_pageSize, BitVec.le_def, frameAddr_toNat_mod, hfe]
  rw [fullPages_eq (m := ph.fullEnd - ph.skip)]
  · refine Prod.ext ?_ (Prod.ext ?_ ?_)
    · refine List.map_congr_left fun j hj => ?_
      rw [List.mem_range] at hj
      have hnot : ¬ (ph.pageOffset ≠ 0 ∧ ph.skip + j = 0) := by omega
      have hin : 4096 * (ph.skip + j + 1) ≤ ph.pageOffset + ph.fileSpan := by omega
      rw [pageRequest, pageCopy, if_neg hnot, if_pos hin, pageSource, if_neg hnot, if_pos hin,
        HostPtr.add_add, Nat.add_assoc,
        show 4096 * ph.skip - ph.pageOffset + 4096 * j = 4096 * (ph.skip + j) - ph.pageOffset by
          omega]
      rfl
    · show frameAddr _ 0 = frameAddr _ 0
      rw [Nat.add_assoc, hend]
    · show (src.add _).add _ = src.add _
      rw [HostPtr.add_add]
      congr 1
      omega
  · rw [loopRounds]
    omega
  · intro j hj
    rw [htest]
    omega
  · rw [htest]
    omega

/-- The third stage: the page with initialized and uninitialized data. -/
theorem mixedPage_segment (he : ph.Ends) (src : HostPtr) :
    mixedPage mode (ph.pVaddr + ph.pFilesz) (frameAddr (ph.startPage + ph.fullEnd) 0)
        (src.add (4096 * ph.fullEnd - ph.pageOffset)) =
      ((List.range (ph.fileEnd - ph.fullEnd)).map fun j =>
          pageRequest mode ph.startPage src ph.pageOffset ph.fileSpan (ph.fullEnd + j),
        frameAddr (ph.startPage + ph.fileEnd) 0) := by
  have hv := ph.pVaddr_eq
  have hoff := ph.pageOffset_lt
  have hfe := he.fileEnd
  have hfile := he.file
  have hskip := ph.skip_cases
  have hspan := ph.fileSpan_cases
  have hle : ph.skip ≤ ph.fullEnd := le_max_left _ _
  have hfull := ph.fullEnd_cases
  have hge : (ph.pageOffset + ph.fileSpan) / 4096 ≤ ph.fullEnd := le_max_right _ _
  -- the file part ends inside the next page, or at its start
  have htest : frameAddr (ph.startPage + ph.fullEnd) 0 < ph.pVaddr + ph.pFilesz ↔
      4096 * ph.fullEnd < ph.pageOffset + ph.fileSpan := by
    rw [BitVec.lt_def, frameAddr_toNat_mod, hfe]
    omega
  rw [mixedPage, ElfPhdr.fileEnd]
  by_cases h : 4096 * ph.fullEnd < ph.pageOffset + ph.fileSpan
  · have hlen : (ph.pVaddr + ph.pFilesz - frameAddr (ph.startPage + ph.fullEnd) 0).toNat =
        ph.pageOffset + ph.fileSpan - 4096 * ph.fullEnd := by
      rw [BitVec.toNat_sub, frameAddr_toNat_mod, hfe]
      omega
    have hnot : ¬ (ph.pageOffset ≠ 0 ∧ ph.fullEnd = 0) := by omega
    have hpart : ¬ 4096 * (ph.fullEnd + 1) ≤ ph.pageOffset + ph.fileSpan := by omega
    have hone : (List.range 1).map (fun j =>
        pageRequest mode ph.startPage src ph.pageOffset ph.fileSpan (ph.fullEnd + j)) =
          [pageRequest mode ph.startPage src ph.pageOffset ph.fileSpan ph.fullEnd] := rfl
    rw [if_pos (htest.mpr h), if_pos h, Nat.add_sub_cancel_left, hone, pageRequest, pageCopy,
      if_neg hnot, if_neg hpart, pageSource, if_neg hnot, if_neg hpart, if_pos h, hlen,
      frameAddr_add_pageSize, Nat.add_assoc]
    cases (src.add (4096 * ph.fullEnd - ph.pageOffset)).readable
      (ph.pageOffset + ph.fileSpan - 4096 * ph.fullEnd) <;> rfl
  · rw [if_neg (fun hh => h (htest.mp hh)), if_neg h, Nat.sub_self]
    rfl

/-- The last stage: the .bss pages. -/
theorem bssPages_segment (he : ph.Ends) (src : HostPtr) :
    bssPages mode (ph.pVaddr + ph.pMemsz) loopRounds (frameAddr (ph.startPage + ph.fileEnd) 0) =
      (List.range (ph.pageCount - ph.fileEnd)).map fun j =>
        pageRequest mode ph.startPage src ph.pageOffset ph.fileSpan (ph.fileEnd + j) := by
  have hv := ph.pVaddr_eq
  have hoff := ph.pageOffset_lt
  have hme := he.memoryEnd
  have hfile := he.file
  have hmem := he.memory
  have hskip := ph.skip_cases
  have hspan := ph.fileSpan_cases
  have hle : ph.skip ≤ ph.fullEnd := le_max_left _ _
  have hfull := ph.fullEnd_cases
  have hge : (ph.pageOffset + ph.fileSpan) / 4096 ≤ ph.fullEnd := le_max_right _ _
  have hfend : (4096 * ph.fullEnd < ph.pageOffset + ph.fileSpan ∧ ph.fileEnd = ph.fullEnd + 1) ∨
      (¬ 4096 * ph.fullEnd < ph.pageOffset + ph.fileSpan ∧ ph.fileEnd = ph.fullEnd) := by
    rw [ElfPhdr.fileEnd]
    split
    · exact Or.inl ⟨‹_›, rfl⟩
    · exact Or.inr ⟨‹_›, rfl⟩
  -- the last page is the one in which the segment ends, and has no bytes of the file
  have hcount : ph.pageCount = (ph.pageOffset + max ph.fileSpan ph.pMemsz.toNat + 4095) / 4096 :=
    rfl
  have htest : ∀ j, frameAddr (ph.startPage + ph.fileEnd + j) 0 < ph.pVaddr + ph.pMemsz ↔
      4096 * ((ph.startPage + ph.fileEnd + j) % 4503599627370496) <
        ph.pVaddr.toNat + ph.pMemsz.toNat := by
    intro j
    rw [BitVec.lt_def, frameAddr_toNat_mod, hme]
  rw [bssPages_eq (m := ph.pageCount - ph.fileEnd)]
  · refine List.map_congr_left fun j hj => ?_
    rw [List.mem_range] at hj
    have hnot : ¬ (ph.pageOffset ≠ 0 ∧ ph.fileEnd + j = 0) := by omega
    have hpart : ¬ 4096 * (ph.fileEnd + j) < ph.pageOffset + ph.fileSpan := by omega
    have hpart' : ¬ 4096 * (ph.fileEnd + j + 1) ≤ ph.pageOffset + ph.fileSpan := by omega
    rw [pageRequest, pageCopy, if_neg hnot, if_neg hpart', pageSource, if_neg hnot,
      if_neg hpart', if_neg hpart, Nat.add_assoc,
      show ph.pageOffset + ph.fileSpan - 4096 * (ph.fileEnd + j) = 0 by omega]
    rfl
  · rw [loopRounds]
    omega
  · intro j hj
    rw [htest]
    omega
  · rw [htest]
    omega

/-- **The requests of a segment**, page by page. -/
theorem segmentRequests_eq (elf : ELFFile) (he : ph.Ends) :
    segmentRequests elf mode ph =
      (List.range ph.pageCount).map
        (pageRequest mode ph.startPage (elf.getProgramSegment ph) ph.pageOffset ph.fileSpan) := by
  have hle : ph.skip ≤ ph.fullEnd := le_max_left _ _
  have hle' : ph.fullEnd ≤ ph.fileEnd := by
    rw [ElfPhdr.fileEnd]
    split <;> omega
  have hle'' : ph.fileEnd ≤ ph.pageCount := by
    have hskip := ph.skip_cases
    have hfull := ph.fullEnd_cases
    rw [ElfPhdr.fileEnd, ElfPhdr.pageCount]
    split <;> omega
  -- the four stages are four stretches of the same pages
  have hsplit : ∀ {a b : ℕ} (f : ℕ → Request), a ≤ b →
      (List.range a).map f ++ (List.range (b - a)).map (fun j => f (a + j)) =
        (List.range b).map f := by
    intro a b f hab
    obtain ⟨d, rfl⟩ := Nat.exists_eq_add_of_le hab
    rw [Nat.add_sub_cancel_left, List.range_add, List.map_append, List.map_map]
    rfl
  rw [segmentRequests]
  simp only [firstPage_eq, fullPages_segment he, mixedPage_segment he,
    bssPages_segment he (elf.getProgramSegment ph)]
  rw [hsplit _ hle, hsplit _ hle', hsplit _ hle'']

end Segment

end KeystoneSdk
