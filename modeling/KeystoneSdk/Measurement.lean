/-
What the measurement of an enclave determines.

The hash is fed the runtime parameters and then, for each run of consecutive
virtual pages, the address of the first page and the contents of all.  Neither
the number of runs nor their lengths are part of it.

* `validate_hashed` — the bytes of an accepted table are the stream of the runs
  of its pages;
* `measurement_not_injective` — two tables with different pages and one stream;
* **`measurement_injective_iff`** — tables with one stream map the same pages
  with the same contents iff their runs have the same lengths.
-/
import KeystoneSdk.PageWalk
import KeystoneSdk.RunStream
import KeystoneSdk.HostLoader

open ByteMemory

namespace KeystoneSdk

/-- The pages a list of table entries maps: their virtual addresses and their
contents. -/
def pagesOf (m : Mem) (l : List Entry) : List (Vaddr × List Byte) :=
  (l.filter fun e => e.IsLeaf).map fun e => (e.va, readBytes m e.phys riscvPgsize)

/-- The pages of a page table in the order of their addresses. -/
def image (m : Mem) (tb : Addr) : List (Vaddr × List Byte) := pagesOf m (allEntries m tb)

/-- The page behind a page. -/
def nextPage (va : Vaddr) : Vaddr := pageVa (vpn va + 1)

/-- How many pages the runs of consecutive pages have. -/
def runLengths (m : Mem) (tb : Addr) : List ℕ :=
  (RunStream.runs nextPage (image m tb)).map fun r => r.2.length

/-- The two tables map the same virtual pages, with the same contents. -/
def SameImage (m : Mem) (tb : Addr) (m' : Mem) (tb' : Addr) : Prop :=
  ∀ va bytes, (va, bytes) ∈ image m tb ↔ (va, bytes) ∈ image m' tb'

/-! ### The image -/

theorem pagesOf_cons_leaf (m : Mem) {e : Entry} (he : e.IsLeaf) (l : List Entry) :
    pagesOf m (e :: l) = (e.va, readBytes m e.phys riscvPgsize) :: pagesOf m l := by
  rw [pagesOf, List.filter_cons_of_pos (by simpa using he)]
  rfl

theorem pagesOf_cons_other (m : Mem) {e : Entry} (he : ¬ e.IsLeaf) (l : List Entry) :
    pagesOf m (e :: l) = pagesOf m l := by
  rw [pagesOf, List.filter_cons_of_neg (by simpa using he)]
  rfl

theorem pagesOf_length (m : Mem) (l : List Entry) :
    ∀ p ∈ pagesOf m l, p.2.length = riscvPgsize := by
  intro p hp
  obtain ⟨e, -, rfl⟩ := List.mem_map.mp hp
  rw [readBytes_length]

/-- Pages are listed by ascending addresses. -/
theorem image_sorted (m : Mem) (tb : Addr) :
    (image m tb).Pairwise fun p p' => p.1 < p'.1 := by
  have hleaves := ((allEntries_tiles m tb).sorted le_rfl).filter fun e => e.IsLeaf
  refine List.pairwise_map.mpr (hleaves.imp_of_mem fun he he' hlt => hlt ?_ ?_)
  · simpa using (List.mem_filter.mp he).2
  · simpa using (List.mem_filter.mp he').2

/-- Two tables have the same image iff the pages and contents listed are the
same. -/
theorem sameImage_iff (m : Mem) (tb : Addr) (m' : Mem) (tb' : Addr) :
    SameImage m tb m' tb' ↔ image m tb = image m' tb' := by
  constructor
  · intro h
    have hnodup : ∀ m tb, (image m tb).Nodup := by
      intro m tb
      refine (image_sorted m tb).imp fun {p p'} hlt heq => ?_
      rw [heq] at hlt
      exact BitVec.lt_irrefl _ hlt
    have hperm := (List.perm_ext_iff_of_nodup (hnodup m tb) (hnodup m' tb')).mpr
      fun p => h p.1 p.2
    refine hperm.eq_of_pairwise ?_ (image_sorted m tb) (image_sorted m' tb')
    intro p p' _ _ hlt hlt'
    exact absurd hlt (BitVec.not_lt.mpr (BitVec.le_of_lt hlt'))
  · intro h va bytes
    rw [h]

/-! ### The stream -/

variable {m : Mem} {cargs : KeystoneHashEnclave}

/-- An accepted leaf adds its page to the hash. -/
theorem validateLeaf_hashed {pte : Pte} {va : Vaddr} {st st' : WalkState}
    (h : validateLeaf m cargs pte va st = some st') :
    st'.hashed = st.hashed ++ readBytes m (ptePhys pte) riscvPgsize := by
  unfold validateLeaf at h
  simp only at h
  split at h
  · cases h
  split at h
  · cases h
  split at h
  · split at h
    · cases h
    · cases h
      rfl
  split at h
  · split at h
    · cases h
    · cases h
      rfl
  split at h
  · cases h
    rfl
  · cases h

/-- How the flag `contiguous` relates to the last page before page number `k`. -/
def Continues (k : ℕ) (c : Int) (last : Option Vaddr) : Prop :=
  (c ≠ 0 ∧ ∃ n, n + 1 = k ∧ last = some (pageVa n)) ∨
  (c = 0 ∧ ∀ va, last = some va → ∃ n, n + 1 < k ∧ va = pageVa n)

/-- A page continues the last run iff the flag is set. -/
theorem Continues.next_iff {k : ℕ} {c : Int} {last : Option Vaddr} (h : Continues k c last)
    (hk : k < 2 ^ 27) : last.map nextPage = some (pageVa k) ↔ c ≠ 0 := by
  obtain ⟨hc, n, hn, rfl⟩ | ⟨hc, hlast⟩ := h
  · rw [Option.map_some, nextPage, vpn_pageVa (by omega), hn]
    exact ⟨fun _ => hc, fun _ => rfl⟩
  · refine ⟨fun heq => ?_, fun hne => absurd hc hne⟩
    obtain ⟨va, rfl, hva⟩ := Option.map_eq_some_iff.mp heq
    obtain ⟨n, hn, rfl⟩ := hlast va rfl
    rw [nextPage, vpn_pageVa (by omega)] at hva
    have := congrArg vpn hva
    rw [vpn_pageVa (by omega), vpn_pageVa hk] at this
    omega

theorem Continues.gap {k w : ℕ} {c : Int} {last : Option Vaddr} (h : Continues k c last)
    (hw : 0 < w) : Continues (k + w) 0 last := by
  refine .inr ⟨rfl, fun va hva => ?_⟩
  obtain ⟨-, n, hn, rfl⟩ | ⟨-, hlast⟩ := h
  · exact ⟨n, by omega, (Option.some.inj hva).symm⟩
  · obtain ⟨n, hn, rfl⟩ := hlast va hva
    exact ⟨n, by omega, rfl⟩

/-- The walk over entries that cover the pages from `k` on writes the stream of
their pages. -/
theorem walk_hashed {k k' : ℕ} {l : List Entry} (h : Tiles k l k') (hk' : k' ≤ 2 ^ 27)
    {s s' : Int × WalkState} {last : Option Vaddr} (hlast : Continues k s.1 last)
    (hwalk : l.foldlM (walkEntry m cargs) s = some s') :
    s'.2.hashed =
      s.2.hashed ++ RunStream.streamFrom nextPage leBytes last (pagesOf m l) := by
  induction h generalizing s last with
  | nil k =>
    cases hwalk
    exact (List.append_nil _).symm
  | @gap k w k' e l hpte hw hl ih =>
    rw [List.foldlM_cons, walkEntry, if_pos hpte] at hwalk
    rw [pagesOf_cons_other m fun he => he.1 hpte]
    exact ih hk' (s := (0, s.2)) (hlast.gap hw) hwalk
  | @leaf k k' e l he hva hl ih =>
    have hk : k < 2 ^ 27 := by
      have := hl.le
      omega
    rw [List.foldlM_cons, walkEntry, if_neg he.1] at hwalk
    split at hwalk
    · cases hwalk
    rw [if_pos he.2] at hwalk
    obtain ⟨mid, hmid, hrest⟩ := Option.bind_eq_some_iff.mp hwalk
    obtain ⟨st', hleaf, rfl⟩ := Option.map_eq_some_iff.mp hmid
    have hbytes := validateLeaf_hashed hleaf
    have hnext : Continues (k + 1) (if s.1 = 0 then 1 else s.1) (some (pageVa k)) := by
      refine .inl ⟨?_, k, rfl, rfl⟩
      split
      · decide
      · assumption
    rw [ih hk' hnext hrest, hbytes, pagesOf_cons_leaf m he, RunStream.streamFrom, hva]
    by_cases hc : s.1 = 0
    · -- the first page of a run
      rw [if_pos hc, if_neg fun heq => (hlast.next_iff hk).mp heq hc]
      simp [WalkState.hashExtend, Entry.phys]
    · rw [if_neg hc, if_pos ((hlast.next_iff hk).mpr hc)]
      simp [Entry.phys]
  | @table k k' e l hpte hlevel hl ih =>
    rw [List.foldlM_cons, walkEntry, if_neg hpte] at hwalk
    split at hwalk
    · cases hwalk
    rw [pagesOf_cons_other m fun he => hlevel he.2]
    exact ih hk' hlast hwalk

/-- What an accepted table adds to the hash. -/
theorem validate_hashed (tb : Addr) (hashed : List Byte)
    (h : (validateTable m cargs tb hashed).1 ≠ -1) :
    (validateTable m cargs tb hashed).2.hashed =
      hashed ++ RunStream.stream leBytes (RunStream.runs nextPage (image m tb)) := by
  have hfollows := validateTable_follows m cargs tb hashed
  rcases hfold : (allEntries m tb).foldlM (walkEntry m cargs) (0, ⟨hashed, 0#64, 0#64⟩)
    with _ | s
  · exact absurd (hfollows.ended hfold) h
  · rw [(hfollows.finished s hfold).1, image, ← RunStream.streamFrom_eq_runs]
    refine walk_hashed (allEntries_tiles m tb) le_rfl ?_ hfold
    exact .inr ⟨rfl, fun va hva => by cases hva⟩

/-! ### Injectivity -/

theorem runs_block_length (m : Mem) (tb : Addr) :
    ∀ r ∈ RunStream.runs nextPage (image m tb), ∀ x ∈ r.2, x.length = riscvPgsize := by
  intro r hr x hx
  obtain ⟨va, hmem⟩ := RunStream.mem_of_mem_runs hr hx
  exact pagesOf_length m _ _ hmem

/-- **The measurement determines the mapping up to the lengths of the runs**:
of two accepted tables with one stream, the mapped pages and their contents are
the same iff the runs have the same lengths. -/
theorem measurement_injective_iff (args : RuntimeParams) (cargs : KeystoneHashEnclave)
    (m : Mem) (tb : Addr) (m' : Mem) (tb' : Addr)
    (h : (validateTable m cargs tb args.bytes).1 ≠ -1)
    (h' : (validateTable m' cargs tb' args.bytes).1 ≠ -1)
    (hstream : (validateTable m cargs tb args.bytes).2.hashed =
      (validateTable m' cargs tb' args.bytes).2.hashed) :
    SameImage m tb m' tb' ↔ runLengths m tb = runLengths m' tb' := by
  rw [sameImage_iff]
  refine ⟨fun himage => by rw [runLengths, himage, runLengths], fun hlengths => ?_⟩
  rw [validate_hashed tb _ h, validate_hashed tb' _ h'] at hstream
  have hruns := RunStream.runs_eq_of_stream leBytes_injective leBytes_length
    (runs_block_length m tb) (runs_block_length m' tb') hlengths
    (List.append_cancel_left hstream)
  rw [← @RunStream.blocks_runs _ _ nextPage _ (image m tb), hruns, RunStream.blocks_runs]

theorem pagesOf_filter (m : Mem) (l : List Entry) :
    pagesOf m (l.filter fun e => e.pte ≠ 0#64) = pagesOf m l := by
  rw [pagesOf, pagesOf, List.filter_filter]
  congr 1
  refine List.filter_congr fun e _ => ?_
  by_cases h : e.pte = 0#64 <;> simp [Entry.IsLeaf, h]

/-- The pages of a small table of three pages. -/
theorem smallTable_image {a b c i : ℕ} {w : BitVec 64} (hab : a < b) (hbc : b < c) (hc : c < 512)
    (hi : i < 512) :
    image (smallTable a b c i w) (frameAddr 0x10 0) =
      [(pageVa a, readBytes (smallTable a b c i w) (frameAddr 0x13 0) riscvPgsize),
        (pageVa b, readBytes (smallTable a b c i w) (frameAddr 0x14 0) riscvPgsize),
        (pageVa c, readBytes (smallTable a b c i w) (frameAddr 0x15 0) riscvPgsize)] := by
  have htable : ∀ {k : ℕ} {p : Pte}, k ≠ 1 → ¬ (⟨k, 0#64, p⟩ : Entry).IsLeaf :=
    fun hk he => hk he.2
  have hleaf : ∀ {va : Vaddr} (p : BitVec 64), (⟨1, va, pteCreate p pteU⟩ : Entry).IsLeaf :=
    fun p => ⟨pteCreate_ne_zero p pteU, rfl⟩
  have hphys : ptePhys (pteCreate 0x13#64 pteU) = frameAddr 0x13 0 ∧
      ptePhys (pteCreate 0x14#64 pteU) = frameAddr 0x14 0 ∧
      ptePhys (pteCreate 0x15#64 pteU) = frameAddr 0x15 0 := by decide
  have hvisits := smallTable_visits (w := w) hab hbc hc hi
  rw [visits] at hvisits
  rw [image, ← pagesOf_filter, hvisits, pagesOf_cons_other _ (htable (by decide)),
    pagesOf_cons_other _ (htable (by decide)), pagesOf_cons_leaf _ (hleaf _),
    pagesOf_cons_leaf _ (hleaf _), pagesOf_cons_leaf _ (hleaf _)]
  simp only [Entry.phys, hphys]
  rfl

theorem writeLE64_frame_byte {p q i o : ℕ} (v : BitVec 64) (hp : p < 2 ^ 52) (hq : q < 2 ^ 52)
    (hi : i < 512) (ho : o < 4096) (hout : p ≠ q ∨ o < 8 * i ∨ 8 * i + 8 ≤ o) :
    writeLE64 m (frameAddr p (8 * i)) v (frameAddr q o) = m (frameAddr q o) := by
  rw [writeLE64, frameAddr, frameAddr, writeBytes_ofNat _ _ (by omega) (by omega),
    if_neg (by omega)]

/-- Behind the tables there are only zeros but for the word `w`. -/
theorem smallTable_byte {a b c i : ℕ} {w : BitVec 64} (hc : a < 512 ∧ b < 512 ∧ c < 512)
    (hi : i < 512) {q o : ℕ} (hq : 0x13 ≤ q) (hq' : q < 2 ^ 52) (ho : o < 4096)
    (hout : q ≠ 0x14 ∨ o < 8 * i ∨ 8 * i + 8 ≤ o) :
    smallTable a b c i w (frameAddr q o) = 0 := by
  rw [smallTable, writeLE64_frame_byte _ (by decide) hq' hi ho (by omega),
    writeLE64_frame_byte _ (by decide) hq' hc.2.2 ho (by omega),
    writeLE64_frame_byte _ (by decide) hq' hc.2.1 ho (by omega),
    writeLE64_frame_byte _ (by decide) hq' hc.1 ho (by omega),
    writeLE64_frame_byte _ (by decide) hq' (by decide) ho (by omega),
    writeLE64_frame_byte _ (by decide) hq' (by decide) ho (by omega)]

theorem readBytes_zero {p o n : ℕ} (h : ∀ d, d < n → m (frameAddr p (o + d)) = 0) :
    readBytes m (frameAddr p o) n = List.replicate n 0 := by
  refine List.eq_replicate_iff.mpr ⟨readBytes_length .., fun b hb => ?_⟩
  obtain ⟨d, hd, rfl⟩ := List.mem_map.mp hb
  rw [frameAddr_add]
  exact h d (List.mem_range.mp hd)

/-- The page with the word `w`. -/
theorem smallTable_page {a b c i : ℕ} {w : BitVec 64} (hc : a < 512 ∧ b < 512 ∧ c < 512)
    (hi : i < 512) :
    readBytes (smallTable a b c i w) (frameAddr 0x14 0) riscvPgsize =
      List.replicate (8 * i) 0 ++ leBytes w ++ List.replicate (4088 - 8 * i) 0 := by
  rw [show riscvPgsize = 8 * i + 8 + (4088 - 8 * i) by
      rw [show riscvPgsize = 4096 from rfl]
      omega,
    readBytes_add, readBytes_add, frameAddr_add, frameAddr_add]
  congr 1
  · congr 1
    · exact readBytes_zero fun d hd =>
        smallTable_byte hc hi (by decide) (by decide) (by omega) (by omega)
    · rw [← leBytes_readLE64, Nat.zero_add, smallTable, readLE64_writeLE64_same]
  · exact readBytes_zero fun d hd =>
      smallTable_byte hc hi (by decide) (by decide) (by omega) (by omega)

/-- A page without the word. -/
theorem smallTable_zero_page {a b c i q : ℕ} {w : BitVec 64} (hc : a < 512 ∧ b < 512 ∧ c < 512)
    (hi : i < 512) (hq : q = 0x13 ∨ q = 0x15) :
    readBytes (smallTable a b c i w) (frameAddr q 0) riscvPgsize = List.replicate riscvPgsize 0 :=
  readBytes_zero fun d hd =>
    smallTable_byte hc hi (by omega) (by omega)
      (by rw [show riscvPgsize = 4096 from rfl] at hd; omega) (by omega)

/-- Pages 1, 2 and 4, where page 2 starts with the address of page 3. -/
def longFirstRun : Mem := smallTable 1 2 4 0 (pageVa 3)

/-- Pages 1, 3 and 4, where page 3 ends with the address of page 4. -/
def longLastRun : Mem := smallTable 1 3 4 511 (pageVa 4)

theorem longFirstRun_accepted (hashed : List Byte) :
    (validateTable longFirstRun smallTableArgs (frameAddr 0x10 0) hashed).1 ≠ -1 :=
  smallTable_accepted (.inl rfl) (by decide) hashed

theorem longLastRun_accepted (hashed : List Byte) :
    (validateTable longLastRun smallTableArgs (frameAddr 0x10 0) hashed).1 ≠ -1 :=
  smallTable_accepted (.inr rfl) (by decide) hashed

/-- The two tables have one stream. -/
theorem longRuns_stream :
    RunStream.stream leBytes (RunStream.runs nextPage (image longFirstRun (frameAddr 0x10 0))) =
      RunStream.stream leBytes
        (RunStream.runs nextPage (image longLastRun (frameAddr 0x10 0))) := by
  rw [longFirstRun, longLastRun, smallTable_image (by decide) (by decide) (by decide) (by decide),
    smallTable_image (by decide) (by decide) (by decide) (by decide)]
  simp only [smallTable_page (show 1 < 512 ∧ 2 < 512 ∧ 4 < 512 by decide) (show 0 < 512 by decide),
    smallTable_page (show 1 < 512 ∧ 3 < 512 ∧ 4 < 512 by decide) (show 511 < 512 by decide),
    smallTable_zero_page (show 1 < 512 ∧ 2 < 512 ∧ 4 < 512 by decide) (show 0 < 512 by decide)
      (.inl rfl),
    smallTable_zero_page (show 1 < 512 ∧ 2 < 512 ∧ 4 < 512 by decide) (show 0 < 512 by decide)
      (.inr rfl),
    smallTable_zero_page (show 1 < 512 ∧ 3 < 512 ∧ 4 < 512 by decide) (show 511 < 512 by decide)
      (.inl rfl),
    smallTable_zero_page (show 1 < 512 ∧ 3 < 512 ∧ 4 < 512 by decide) (show 511 < 512 by decide)
      (.inr rfl)]
  have hnext : nextPage (pageVa 1) = pageVa 2 ∧ nextPage (pageVa 2) = pageVa 3 ∧
      nextPage (pageVa 3) = pageVa 4 := by decide
  have hne : pageVa 2 ≠ pageVa 3 ∧ pageVa 3 ≠ pageVa 4 := by decide
  rw [← RunStream.streamFrom_eq_runs, ← RunStream.streamFrom_eq_runs]
  generalize List.replicate riscvPgsize (0 : Byte) = zeros
  rw [show 8 * 511 = 4088 from rfl, show 4088 - 8 * 0 = 4088 from rfl]
  generalize List.replicate 4088 (0 : Byte) = rest
  simp [RunStream.streamFrom, hnext, hne]

/-- **The measurement is not injective**: both tables are accepted and feed the
same bytes to the hash, but only one of them maps page 2. -/
theorem measurement_not_injective :
    (validateTable longFirstRun smallTableArgs (frameAddr 0x10 0)
      (RuntimeParams.bytes ⟨0#64, 0#64, 0#64, 0#64⟩)).1 ≠ -1 ∧
    (validateTable longLastRun smallTableArgs (frameAddr 0x10 0)
      (RuntimeParams.bytes ⟨0#64, 0#64, 0#64, 0#64⟩)).1 ≠ -1 ∧
    (validateTable longFirstRun smallTableArgs (frameAddr 0x10 0)
      (RuntimeParams.bytes ⟨0#64, 0#64, 0#64, 0#64⟩)).2.hashed =
      (validateTable longLastRun smallTableArgs (frameAddr 0x10 0)
        (RuntimeParams.bytes ⟨0#64, 0#64, 0#64, 0#64⟩)).2.hashed ∧
    ¬ SameImage longFirstRun (frameAddr 0x10 0) longLastRun (frameAddr 0x10 0) := by
  refine ⟨longFirstRun_accepted _, longLastRun_accepted _, ?_, fun hsame => ?_⟩
  · rw [validate_hashed _ _ (longFirstRun_accepted _), validate_hashed _ _ (longLastRun_accepted _),
      longRuns_stream]
  · have himage := (sameImage_iff ..).mp hsame
    rw [longFirstRun, longLastRun, smallTable_image (by decide) (by decide) (by decide)
      (by decide), smallTable_image (by decide) (by decide) (by decide) (by decide)] at himage
    obtain ⟨hva, -⟩ := List.cons.inj (List.cons.inj himage).2
    exact absurd (congrArg Prod.fst hva) (show pageVa 2 ≠ pageVa 3 by decide)

theorem measurement_injective_iff_small :
    SameImage longFirstRun (frameAddr 0x10 0) longLastRun (frameAddr 0x10 0) ↔
      runLengths longFirstRun (frameAddr 0x10 0) = runLengths longLastRun (frameAddr 0x10 0) :=
  measurement_injective_iff ⟨0#64, 0#64, 0#64, 0#64⟩ smallTableArgs longFirstRun (frameAddr 0x10 0)
    longLastRun (frameAddr 0x10 0) (longFirstRun_accepted _) (longLastRun_accepted _) (by
      rw [validate_hashed _ _ (longFirstRun_accepted _),
        validate_hashed _ _ (longLastRun_accepted _), longRuns_stream])

end KeystoneSdk
