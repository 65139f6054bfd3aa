/-
What is hashed is what is mapped.

The measurement enumerates a page table from the top; `epm_va_to_pa` looks one
address up from the root.  On a table that the loader has built the two agree.

* `Keystone.mappedTo`, `mappedPages` — the pages `epm_va_to_pa` maps, listed by
  page number;
* `table_leaf_iff`, `mem_image_iff` — the enumeration meets exactly the pages of
  the address space;
* **`hashed_eq_mapped`** — the bytes hashed are the stream of the runs of
  consecutive mapped page numbers.
-/
import KeystoneSdk.Measurement
import KeystoneSdk.PageTableMap

open ByteMemory StopM

namespace KeystoneSdk

/-- The physical page `epm_va_to_pa` maps page number `k` to.  Its result 0 does
not say whether there is an entry, which is `pteAt`. -/
def Keystone.mappedTo (s : Keystone) (k : ℕ) : Option Paddr :=
  match s.pteAt (pageVa k), (exec (epmVaToPa (pageVa k)) s).1 with
  | some _, .ok pa => some pa
  | _, _ => none

/-- The mapped page numbers in ascending order, with the contents of their
pages. -/
def mappedPages (s : Keystone) : List (ℕ × List Byte) :=
  (List.range (2 ^ 27)).filterMap fun k =>
    (s.mappedTo k).map fun pa => (k, readBytes s.mem pa riscvPgsize)

section Tables

variable {L : Layout} {s : Keystone} {a : AddressSpace}

theorem mappedTo_eq (hr : Repr L s a) {k : ℕ} (hk : k < 2 ^ 27) :
    s.mappedTo k = (a.leaf k).map fun lf => frameAddr (lf.frame.number L) 0 := by
  unfold Keystone.mappedTo
  rw [pteAt_eq hr, exec_epmVaToPa hr, vpn_pageVa hk]
  cases hl : a.leaf k with
  | none => rfl
  | some lf =>
    rw [AddressSpace.translate_some hl]
    rfl

/-! ### The enumeration -/

/-- Every page of the address space has tables above it, up to the root. -/
theorem Repr.leaf_tab (hr : Repr L s a) {v : ℕ} {lf : Leaf} (hl : a.leaf v = some lf) {h : ℕ}
    (hh : h ≤ 2) : ∃ k, a.tab h (v / 512 ^ (h + 1)) = some k := by
  induction h with
  | zero => exact hr.wf.leaf_parent hl
  | succ h ih =>
    obtain ⟨k, hk⟩ := ih (by omega)
    obtain ⟨k', hk'⟩ := hr.wf.tab_parent hk (by omega)
    rw [Nat.div_div_eq_div_mul, ← pow_succ] at hk'
    exact ⟨k', hk'⟩

/-- The leaves the walk meets from a table on are the pages below the table. -/
theorem table_leaf_iff (hr : Repr L s a) {h q k : ℕ} (vaddr : Vaddr) (hh : h ≤ 2)
    (hk : a.tab h q = some k)
    (hstart : ∀ i, i < 512 → StartsAt h (walkVpn (h + 1) vaddr i) ((512 * q + i) * 512 ^ h))
    (e : Entry) :
    (e ∈ entries s.mem (h + 1) (frameAddr (L.epmFrame + k) 0) vaddr ∧ e.IsLeaf) ↔
      ∃ v lf, a.leaf v = some lf ∧ v / 512 ^ (h + 1) = q ∧ e = ⟨1, pageVa v, lf.pte L⟩ := by
  induction h generalizing q k vaddr with
  | zero =>
    -- the entries of a table of leaves, one by one
    have hentry : ∀ i, i < 512 → tableEntry s.mem 1 (frameAddr (L.epmFrame + k) 0) vaddr i =
        ⟨1, pageVa (512 * q + i), a.entry L 0 (512 * q + i)⟩ := by
      intro i hi
      have hva := hstart i hi 0 (by decide)
      have hread := hr.entries hk hi
      rw [tableEntry, frameAddr_index, hread]
      simp only [Entry.mk.injEq, and_true, true_and]
      simpa [riscvPgshift] using hva
    simp only [entries, List.mem_flatMap, List.mem_range, List.mem_cons, ite_self,
      List.not_mem_nil, or_false]
    constructor
    · rintro ⟨⟨i, hi, rfl⟩, hleaf⟩
      rw [hentry i hi] at hleaf ⊢
      cases hl : a.leaf (512 * q + i) with
      | none => exact absurd (AddressSpace.entry_leaf_none hl) hleaf.1
      | some lf =>
        refine ⟨512 * q + i, lf, hl, by omega, ?_⟩
        rw [AddressSpace.entry_leaf_some hl]
    · rintro ⟨v, lf, hl, hq, rfl⟩
      rw [pow_one] at hq
      have hv : 512 * q + v % 512 = v := by omega
      refine ⟨⟨v % 512, Nat.mod_lt _ (by decide), ?_⟩, pteCreate_ne_zero _ _, rfl⟩
      rw [hentry _ (Nat.mod_lt _ (by decide)), hv, AddressSpace.entry_leaf_some hl]
  | succ h ih =>
    have hread : ∀ i, i < 512 →
        (tableEntry s.mem (h + 2) (frameAddr (L.epmFrame + k) 0) vaddr i).pte =
          a.entry L (h + 1) (512 * q + i) := by
      intro i hi
      show readLE64 s.mem _ = _
      rw [frameAddr_index, hr.entries hk hi]
    -- the table below an entry, and what the walk finds there
    have hbelow : ∀ i k', i < 512 → a.tab h (512 * q + i) = some k' →
        (tableEntry s.mem (h + 2) (frameAddr (L.epmFrame + k) 0) vaddr i).pte ≠ 0#64 ∧
        (tableEntry s.mem (h + 2) (frameAddr (L.epmFrame + k) 0) vaddr i).phys =
          frameAddr (L.epmFrame + k') 0 ∧
        ((e ∈ entries s.mem (h + 1) (frameAddr (L.epmFrame + k') 0) (walkVpn (h + 2) vaddr i) ∧
            e.IsLeaf) ↔
          ∃ v lf, a.leaf v = some lf ∧ v / 512 ^ (h + 1) = 512 * q + i ∧
            e = ⟨1, pageVa v, lf.pte L⟩) := by
      intro i k' hi hk'
      have hpte := hread i hi
      rw [AddressSpace.entry_tab_some hk', ptdCreate] at hpte
      refine ⟨?_, ?_, ih _ (by omega) hk' fun j hj => ?_⟩
      · rw [hpte]
        exact pteCreate_ne_zero _ _
      · show ptePhys (Entry.pte _) = _
        rw [hpte]
        exact ptePpn_shiftLeft (hr.tab_number_lt hk') (by decide)
      · have hj' := (hstart i hi).walkVpn (show h + 1 ≠ 3 by omega) hj
        rwa [show (512 * q + i) * 512 ^ (h + 1) + j * 512 ^ h =
          (512 * (512 * q + i) + j) * 512 ^ h by ring] at hj'
    rw [entries]
    simp only [List.mem_flatMap, List.mem_range, List.mem_cons]
    constructor
    · rintro ⟨⟨i, hi, rfl | he⟩, hleaf⟩
      · exact absurd hleaf.2 (show ¬ h + 2 = 1 by omega)
      · cases hk' : a.tab h (512 * q + i) with
        | none =>
          rw [if_pos ((hread i hi).trans (AddressSpace.entry_tab_none hk'))] at he
          exact absurd he List.not_mem_nil
        | some k' =>
          obtain ⟨hpte, hphys, hiff⟩ := hbelow i k' hi hk'
          rw [if_neg hpte, hphys] at he
          obtain ⟨v, lf, hl, hv, rfl⟩ := hiff.1 ⟨he, hleaf⟩
          refine ⟨v, lf, hl, ?_, rfl⟩
          rw [pow_succ, ← Nat.div_div_eq_div_mul, hv]
          omega
    · rintro ⟨v, lf, hl, hq, rfl⟩
      rw [pow_succ, ← Nat.div_div_eq_div_mul] at hq
      have hi : v / 512 ^ (h + 1) % 512 < 512 := Nat.mod_lt _ (by decide)
      have hv : 512 * q + v / 512 ^ (h + 1) % 512 = v / 512 ^ (h + 1) := by omega
      obtain ⟨k', hk'⟩ := hr.leaf_tab hl (h := h) (by omega)
      obtain ⟨hpte, hphys, hiff⟩ := hbelow _ k' hi (by rw [hv]; exact hk')
      obtain ⟨he, hleaf⟩ := hiff.2 ⟨v, lf, hl, hv.symm, rfl⟩
      refine ⟨⟨_, hi, .inr ?_⟩, hleaf⟩
      rw [if_neg hpte, hphys]
      exact he

/-- The image of a represented table is the pages of the address space. -/
theorem mem_image_iff (hr : Repr L s a) (va : Vaddr) (bytes : List Byte) :
    (va, bytes) ∈ image s.mem s.rootPageTable ↔
      ∃ v lf, a.leaf v = some lf ∧ va = pageVa v ∧
        bytes = readBytes s.mem (frameAddr (lf.frame.number L) 0) riscvPgsize := by
  have hroot := table_leaf_iff hr 0#64 le_rfl hr.wf.root (fun i hi => by
    rw [Nat.mul_zero, Nat.zero_add]
    exact startsAt_root hi)
  have hphys : ∀ {v lf}, a.leaf v = some lf →
      (⟨1, pageVa v, lf.pte L⟩ : Entry).phys = frameAddr (lf.frame.number L) 0 :=
    fun hl => ptePpn_shiftLeft (hr.leaf_inside hl).number_lt (hr.wf.leaf_flags hl)
  unfold image pagesOf allEntries
  rw [show s.rootPageTable = frameAddr (L.epmFrame + 0) 0 from hr.root]
  simp only [List.mem_map, List.mem_filter, decide_eq_true_eq]
  constructor
  · rintro ⟨e, he, hpair⟩
    obtain ⟨v, lf, hl, -, rfl⟩ := (hroot e).1 he
    obtain ⟨rfl, rfl⟩ := Prod.mk.inj hpair
    exact ⟨v, lf, hl, rfl, by rw [hphys hl]⟩
  · rintro ⟨v, lf, hl, hva, hbytes⟩
    have hrange := hr.wf.leaf_range hl
    refine ⟨_, (hroot _).2 ⟨v, lf, hl, Nat.div_eq_of_lt (by norm_num; omega), rfl⟩, ?_⟩
    rw [hphys hl, hva, hbytes]

/-! ### The list of mapped pages -/

theorem mem_mappedPages_iff (hr : Repr L s a) (v : ℕ) (bytes : List Byte) :
    (v, bytes) ∈ mappedPages s ↔
      ∃ lf, a.leaf v = some lf ∧
        bytes = readBytes s.mem (frameAddr (lf.frame.number L) 0) riscvPgsize := by
  unfold mappedPages
  simp only [List.mem_filterMap, List.mem_range, Option.map_eq_some_iff, Prod.mk.injEq]
  constructor
  · rintro ⟨k, hk, pa, hpa, rfl, rfl⟩
    rw [mappedTo_eq hr hk] at hpa
    obtain ⟨lf, hl, rfl⟩ := Option.map_eq_some_iff.1 hpa
    exact ⟨lf, hl, rfl⟩
  · rintro ⟨lf, hl, hbytes⟩
    have hv : v < 2 ^ 27 := hr.wf.leaf_range hl
    refine ⟨v, hv, frameAddr (lf.frame.number L) 0, ?_, rfl, hbytes.symm⟩
    rw [mappedTo_eq hr hv, hl]
    rfl

theorem mappedPages_sorted (s : Keystone) :
    (mappedPages s).Pairwise fun p p' => p.1 < p'.1 := by
  unfold mappedPages
  refine List.pairwise_filterMap.2 (List.pairwise_lt_range.imp ?_)
  intro k k' hlt p hp p' hp'
  obtain ⟨-, -, rfl⟩ := Option.map_eq_some_iff.1 hp
  obtain ⟨-, -, rfl⟩ := Option.map_eq_some_iff.1 hp'
  exact hlt

theorem mappedPages_lt {s : Keystone} : ∀ p ∈ mappedPages s, p.1 < 2 ^ 27 := by
  intro p hp
  obtain ⟨k, hk, hp⟩ := List.mem_filterMap.1 hp
  obtain ⟨-, -, rfl⟩ := Option.map_eq_some_iff.1 hp
  exact List.mem_range.1 hk

/-- The enumeration lists the mapped pages. -/
theorem image_eq (hr : Repr L s a) :
    image s.mem s.rootPageTable = (mappedPages s).map fun p => (pageVa p.1, p.2) := by
  have hsorted : ((mappedPages s).map fun p => (pageVa p.1, p.2)).Pairwise
      fun p p' => p.1 < p'.1 := by
    refine List.pairwise_map.2 ((mappedPages_sorted s).imp_of_mem fun hp hp' hlt => ?_)
    exact (pageVa_lt_iff (mappedPages_lt _ hp) (mappedPages_lt _ hp')).2 hlt
  have hnodup : ∀ {l : List (Vaddr × List Byte)}, l.Pairwise (fun p p' => p.1 < p'.1) → l.Nodup :=
    fun h => h.imp fun {p p'} hlt heq => by
      rw [heq] at hlt
      exact BitVec.lt_irrefl _ hlt
  have himage := image_sorted s.mem s.rootPageTable
  have hperm := (List.perm_ext_iff_of_nodup (hnodup himage) (hnodup hsorted)).2 fun p => by
    obtain ⟨va, bytes⟩ := p
    rw [mem_image_iff hr, List.mem_map]
    constructor
    · rintro ⟨v, lf, hl, hva, hbytes⟩
      refine ⟨(v, bytes), (mem_mappedPages_iff hr v _).2 ⟨lf, hl, hbytes⟩, ?_⟩
      rw [hva]
    · rintro ⟨⟨v, bytes'⟩, hmem, hpair⟩
      obtain ⟨rfl, rfl⟩ := Prod.mk.inj hpair
      obtain ⟨lf, hl, hbytes⟩ := (mem_mappedPages_iff hr v _).1 hmem
      exact ⟨v, lf, hl, rfl, hbytes⟩
  refine hperm.eq_of_pairwise ?_ himage hsorted
  intro p p' _ _ hlt hlt'
  exact absurd hlt (BitVec.not_lt.2 (BitVec.le_of_lt hlt'))

end Tables

/-! ### Runs of page numbers -/

/-- The pages at consecutive addresses are those with consecutive numbers. -/
theorem nextPage_eq_iff {k k' : ℕ} (hk' : k' < 2 ^ 27) (hlt : k < k') :
    nextPage (pageVa k) = pageVa k' ↔ k + 1 = k' := by
  rw [nextPage, vpn_pageVa (by omega)]
  constructor
  · intro h
    have hvpn := congrArg vpn h
    rwa [vpn_pageVa (by omega), vpn_pageVa hk'] at hvpn
  · rintro rfl
    rfl

/-- The stream by addresses is the stream by page numbers. -/
theorem streamFrom_pageVa {l : List (ℕ × List Byte)} (hsorted : l.Pairwise fun p p' => p.1 < p'.1)
    (hlt : ∀ p ∈ l, p.1 < 2 ^ 27) (last : Option ℕ) (hlast : ∀ k ∈ last, ∀ p ∈ l, k < p.1) :
    RunStream.streamFrom nextPage leBytes (last.map pageVa) (l.map fun p => (pageVa p.1, p.2)) =
      RunStream.streamFrom (· + 1) (fun k => leBytes (pageVa k)) last l := by
  induction l generalizing last with
  | nil => rfl
  | cons p l ih =>
    obtain ⟨k, bytes⟩ := p
    obtain ⟨hfirst, hsorted⟩ := List.pairwise_cons.1 hsorted
    have hrest := ih hsorted (fun p hp => hlt p (List.mem_cons_of_mem _ hp)) (some k)
      (fun k' hk' p hp => by
        obtain rfl := Option.some.inj hk'
        exact hfirst p hp)
    have hcont : (last.map pageVa).map nextPage = some (pageVa k) ↔
        last.map (· + 1) = some k := by
      cases last with
      | none => simp
      | some k' =>
        have := hlast k' rfl _ List.mem_cons_self
        simp only [Option.map_some, Option.some_inj]
        exact nextPage_eq_iff (hlt _ List.mem_cons_self) this
    rw [List.map_cons, RunStream.streamFrom, RunStream.streamFrom, ← hrest]
    by_cases h : last.map (· + 1) = some k
    · rw [if_pos h, if_pos (hcont.2 h)]
      rfl
    · rw [if_neg h, if_neg fun h' => h (hcont.1 h')]
      rfl

/-- What the walk of a represented table adds to the hash. -/
theorem Repr.hashed {L : Layout} {s : Keystone} {a : AddressSpace} (hr : Repr L s a)
    {cargs : KeystoneHashEnclave} {hashed : List Byte}
    (h : (validateTable s.mem cargs s.rootPageTable hashed).1 ≠ -1) :
    (validateTable s.mem cargs s.rootPageTable hashed).2.hashed =
      hashed ++ RunStream.stream (fun k => leBytes (pageVa k))
        (RunStream.runs (· + 1) (mappedPages s)) := by
  have hstream := streamFrom_pageVa (mappedPages_sorted s) mappedPages_lt none nofun
  rw [validate_hashed _ _ h, ← RunStream.streamFrom_eq_runs, ← RunStream.streamFrom_eq_runs,
    image_eq hr, ← hstream]
  rfl

/-- **What is hashed is what is mapped.**  After any calls of `allocPage` and
`epm_alloc_vspace`, an accepted page table adds to the hash, for each maximal run
of consecutive mapped page numbers, the address of its first page and the contents
of its pages. -/
theorem hashed_eq_mapped (L : Layout) (s₀ : Keystone) (hs : Repr.Initial L s₀)
    (calls : List LoaderCall) (hc : ∀ c ∈ calls, c.Valid)
    (hin : InBuffers L (exec (runCalls calls) s₀).2) (cargs : KeystoneHashEnclave)
    (hashed : List Byte)
    (h : (validateTable (exec (runCalls calls) s₀).2.mem cargs
      (exec (runCalls calls) s₀).2.rootPageTable hashed).1 ≠ -1) :
    (validateTable (exec (runCalls calls) s₀).2.mem cargs
        (exec (runCalls calls) s₀).2.rootPageTable hashed).2.hashed =
      hashed ++ RunStream.stream (fun k => leBytes (pageVa k))
        (RunStream.runs (· + 1) (mappedPages (exec (runCalls calls) s₀).2)) :=
  (calls_represent (Repr.of_initial hs) hc hin).2.hashed h

/-! ### Two runs of pages -/

/-- The last page of one leaf table, the first page of the next one, and a page behind a gap. -/
def borderCalls : List LoaderCall :=
  [.allocPage 0x1ff000#64 .epm nullpage userNoexec, .allocPage 0x200000#64 .epm nullpage userNoexec,
    .allocPage 0x202000#64 .epm nullpage userNoexec]

/-- The root table in the first page of `smallLayout`, everything behind it for the
user. -/
def borderCallsArgs : KeystoneHashEnclave where
  epmPaddr := 0x10000#64
  epmSize := 0x8000#64
  utmPaddr := 0x20000#64
  utmSize := 0x2000#64
  runtimePaddr := 0x10000#64
  userPaddr := 0x11000#64
  freePaddr := 0x18000#64
  untrustedPtr := 0x300000#64
  untrustedSize := 0x1000#64

theorem borderCalls_valid : ∀ c ∈ borderCalls, c.Valid := by
  intro c hc
  simp only [borderCalls, List.mem_cons, List.not_mem_nil, or_false] at hc
  rcases hc with rfl | rfl | rfl
  · exact ⟨by decide, by decide⟩
  · exact ⟨by decide, by decide⟩
  · exact ⟨by decide, by decide⟩

theorem borderCalls_pages :
    (exec (runCalls borderCalls) smallState).2.epmPages =
        [0x10000#64, 0x11000#64, 0x12000#64, 0x13000#64, 0x14000#64, 0x15000#64, 0x16000#64] ∧
      (exec (runCalls borderCalls) smallState).2.utmPages = [] := by
  decide +kernel

theorem borderCalls_inBuffers : InBuffers smallLayout (exec (runCalls borderCalls) smallState).2 :=
  inBuffers_of_pages borderCalls_pages.1 borderCalls_pages.2 (by decide) (by decide)

theorem borderCalls_accepted :
    (validateTable (exec (runCalls borderCalls) smallState).2.mem borderCallsArgs
      (exec (runCalls borderCalls) smallState).2.rootPageTable []).1 ≠ -1 := by
  decide +kernel

theorem borderCalls_leaf (v : ℕ) :
    (∃ lf, (meaning borderCalls .empty).leaf v = some lf) ↔ v ∈ [511, 512, 514] := by
  rw [← Option.isSome_iff_exists]
  show Option.isSome (if v = 514 then some _ else if v = 512 then some _ else
    if v = 511 then some _ else none) = true ↔ _
  split_ifs with h514 h512 h511
  · exact iff_of_true rfl (by rw [h514]; decide)
  · exact iff_of_true rfl (by rw [h512]; decide)
  · exact iff_of_true rfl (by rw [h511]; decide)
  · exact iff_of_false Bool.false_ne_true (by simp [h514, h512, h511])

theorem borderCalls_numbers :
    (mappedPages (exec (runCalls borderCalls) smallState).2).map Prod.fst = [511, 512, 514] := by
  have hr := (calls_represent (Repr.of_initial smallState_initial) borderCalls_valid
    borderCalls_inBuffers).2
  have hsorted := List.pairwise_map.2 (mappedPages_sorted (exec (runCalls borderCalls) smallState).2)
  have hmem : ∀ v, v ∈ (mappedPages (exec (runCalls borderCalls) smallState).2).map Prod.fst ↔
      v ∈ [511, 512, 514] := by
    intro v
    rw [← borderCalls_leaf, List.mem_map]
    constructor
    · rintro ⟨⟨v, bytes⟩, hp, rfl⟩
      obtain ⟨lf, hl, -⟩ := (mem_mappedPages_iff hr v bytes).1 hp
      exact ⟨lf, hl⟩
    · rintro ⟨lf, hl⟩
      exact ⟨_, (mem_mappedPages_iff hr v _).2 ⟨lf, hl, rfl⟩, rfl⟩
  have hperm := (List.perm_ext_iff_of_nodup (hsorted.imp Nat.ne_of_lt) (by decide)).2 hmem
  refine hperm.eq_of_pairwise ?_ hsorted (by decide)
  intro v v' _ _ hlt hlt'
  exact absurd hlt (Nat.lt_asymm hlt')

/-- Pages 511 and 512 are one run, and page 514 is another. -/
theorem hashed_eq_mapped_border :
    (validateTable (exec (runCalls borderCalls) smallState).2.mem borderCallsArgs
        (exec (runCalls borderCalls) smallState).2.rootPageTable []).2.hashed =
      [] ++ RunStream.stream (fun k => leBytes (pageVa k))
        (RunStream.runs (· + 1) (mappedPages (exec (runCalls borderCalls) smallState).2)) ∧
      (mappedPages (exec (runCalls borderCalls) smallState).2).map Prod.fst = [511, 512, 514] :=
  ⟨hashed_eq_mapped smallLayout smallState smallState_initial borderCalls borderCalls_valid
    borderCalls_inBuffers borderCallsArgs [] borderCalls_accepted, borderCalls_numbers⟩

end KeystoneSdk
