/-
The check of `validate_and_hash_epm` on the untrusted range.

A page whose virtual address lies in the untrusted range must lie in the UTM.
The end of the range is computed in 64 bits: a range that ends at the top of the
address space ends at 0.

* `walk_leaf`, `validateLeaf_some` — what is true of every page of an accepted
  table;
* `selfTable` — a table that maps only itself, at the last page;
* **`untrusted_backed_iff`** — for which descriptions of an enclave every accepted
  table maps the untrusted range to the UTM.
-/
import KeystoneSdk.PageWalk

open ByteMemory

namespace KeystoneSdk

/-- Every page at an address in the untrusted range lies in the UTM. -/
def UntrustedBacked (cargs : KeystoneHashEnclave) (m : Mem) (tb : Addr) : Prop :=
  ∀ e ∈ leaves m tb, InSpan e.va cargs.untrustedPtr cargs.untrustedSize →
    InSpan e.phys cargs.utmPaddr cargs.utmSize

variable {m : Mem} {cargs : KeystoneHashEnclave}

/-! ### Pages of an accepted table -/

/-- What the walk accepts as a page. -/
structure LeafChecked (cargs : KeystoneHashEnclave) (e : Entry) : Prop where
  mapped : cargs.mapInEpm e.phys = true ∨ cargs.mapInUtm e.phys = true
  untrusted : cargs.inUntrusted e.va = true → cargs.mapInUtm e.phys = true
  placed : ((cargs.inRuntime e.phys = true ∨ cargs.inUser e.phys = true) ∧ e.phys ≠ 0#64) ∨
    cargs.mapInUtm e.phys = true

theorem validateLeaf_some {pte : Pte} {va : Vaddr} {st st' : WalkState}
    (h : validateLeaf m cargs pte va st = some st') :
    (cargs.inUntrusted va = true → cargs.mapInUtm (ptePhys pte) = true) ∧
      (((cargs.inRuntime (ptePhys pte) = true ∨ cargs.inUser (ptePhys pte) = true) ∧
          ptePhys pte ≠ 0#64) ∨ cargs.mapInUtm (ptePhys pte) = true) := by
  -- a page above a maximum is not page 0
  have hpos : ∀ seen : Paddr, ¬ ptePhys pte ≤ seen → ptePhys pte ≠ 0#64 := by
    intro seen hle hzero
    rw [hzero] at hle
    exact hle (BitVec.le_def.2 (Nat.zero_le _))
  unfold validateLeaf at h
  dsimp only at h
  split at h
  · cases h
  split at h
  · cases h
  rename_i hnot
  refine ⟨fun hin => not_not.1 fun hout => hnot ⟨hin, hout⟩, ?_⟩
  split at h
  · rename_i hruntime
    split at h
    · cases h
    · rename_i hseen
      exact .inl ⟨.inl hruntime, hpos _ hseen⟩
  split at h
  · rename_i huser
    split at h
    · cases h
    · rename_i hseen
      exact .inl ⟨.inr huser, hpos _ hseen⟩
  split at h
  · rename_i hutm
    exact .inr hutm
  · cases h

/-- Every page the walk has passed was accepted. -/
theorem walk_leaf {l : List Entry} {s s' : Int × WalkState}
    (h : l.foldlM (walkEntry m cargs) s = some s') {e : Entry} (he : e ∈ l) (hleaf : e.IsLeaf) :
    LeafChecked cargs e := by
  induction l generalizing s with
  | nil => exact absurd he List.not_mem_nil
  | cons e' l ih =>
    rw [List.foldlM_cons] at h
    obtain ⟨s1, hstep, hrest⟩ := Option.bind_eq_some_iff.1 h
    obtain rfl | he := List.mem_cons.1 he
    · unfold walkEntry at hstep
      rw [if_neg hleaf.1] at hstep
      by_cases hbad : ¬ cargs.mapInEpm e.phys ∧ (¬ cargs.mapInUtm e.phys ∨ e.level ≠ 1)
      · rw [if_pos hbad] at hstep
        cases hstep
      · rw [if_neg hbad, if_pos hleaf.2] at hstep
        obtain ⟨st, hst, -⟩ := Option.map_eq_some_iff.1 hstep
        obtain ⟨huntrusted, hplaced⟩ := validateLeaf_some hst
        refine ⟨?_, huntrusted, hplaced⟩
        by_contra hnone
        push Not at hnone
        exact hbad ⟨hnone.1, .inl hnone.2⟩
    · exact ih hrest he

/-- A page in the UTM in the sense of the check lies in it. -/
theorem inSpan_of_mapInUtm {p : Paddr} (h : cargs.mapInUtm p = true) :
    InSpan p cargs.utmPaddr cargs.utmSize := by
  have hsize := cargs.utmSize.isLt
  have hp := p.isLt
  unfold KeystoneHashEnclave.mapInUtm at h
  rw [Bool.and_eq_true, decide_eq_true_iff, decide_eq_true_iff, BitVec.le_def, BitVec.lt_def,
    BitVec.toNat_add] at h
  unfold InSpan
  omega

/-- Every page of an accepted table was checked. -/
theorem leaf_checked {tb : Addr} {hashed : List Byte}
    (h : (validateTable m cargs tb hashed).1 ≠ -1) {e : Entry} (he : e ∈ leaves m tb) :
    LeafChecked cargs e ∧ ∃ n, n < 2 ^ 27 ∧ e.va = pageVa n := by
  obtain ⟨hvisit, hleaf⟩ := List.mem_filter.1 he
  have hentry := List.mem_of_mem_filter hvisit
  have hleaf : e.IsLeaf := by simpa using hleaf
  have hfollows := validateTable_follows m cargs tb hashed
  obtain ⟨n, -, hn, hva⟩ := (allEntries_tiles m tb).leaf_va hentry hleaf
  refine ⟨?_, n, hn, hva⟩
  cases hfold : (allEntries m tb).foldlM (walkEntry m cargs) (0, ⟨hashed, 0#64, 0#64⟩) with
  | none => exact absurd (hfollows.ended hfold) h
  | some s => exact walk_leaf hfold hentry hleaf

/-! ### A table that maps itself -/

/-- Frame `p` as the tables of all three levels and as the only page mapped. -/
def selfTable (p : ℕ) : Mem :=
  writeLE64 (fun _ => 0) (frameAddr p (8 * 511)) (pteCreate (BitVec.ofNat 64 p) pteU)

/-- Its one entry, at each level. -/
theorem selfTable_entries {p : ℕ} (hp : p < 2 ^ 52) (level : ℕ) (vaddr : Vaddr) :
    ∃ zeros : List Entry, (∀ e ∈ zeros, e.pte = 0#64) ∧
      entries (selfTable p) (level + 1) (frameAddr p 0) vaddr =
        zeros ++ ⟨level + 1, walkVpn (level + 1) vaddr 511 <<< riscvPgshift,
          pteCreate (BitVec.ofNat 64 p) pteU⟩ ::
            entries (selfTable p) level (frameAddr p 0) (walkVpn (level + 1) vaddr 511) := by
  have hread : ∀ i, i < 512 →
      (tableEntry (selfTable p) (level + 1) (frameAddr p 0) vaddr i).pte =
        if 511 = i then pteCreate (BitVec.ofNat 64 p) pteU else 0#64 := by
    intro i hi
    show readLE64 (selfTable p) _ = _
    rw [frameAddr_index, selfTable, readLE64_writeLE64_frame _ _ hp hp (by decide) hi,
      readLE64_frame_zero hi fun _ _ => rfl]
    simp
  have hphys : ptePhys (pteCreate (BitVec.ofNat 64 p) pteU) = frameAddr p 0 :=
    ptePpn_shiftLeft hp (by decide)
  -- 511 empty entries, which have nothing below them, and the last one
  refine ⟨(List.range 511).map (tableEntry (selfTable p) (level + 1) (frameAddr p 0) vaddr),
    ?_, ?_⟩
  · intro e he
    obtain ⟨i, hi, rfl⟩ := List.mem_map.1 he
    have hi := List.mem_range.1 hi
    rw [hread i (by omega), if_neg (by omega)]
  · have hzeros : ((List.range 511).flatMap fun i =>
        let e := tableEntry (selfTable p) (level + 1) (frameAddr p 0) vaddr i
        e :: if e.pte = 0#64 then []
          else entries (selfTable p) level e.phys (walkVpn (level + 1) vaddr i)) =
        (List.range 511).map (tableEntry (selfTable p) (level + 1) (frameAddr p 0) vaddr) := by
      rw [List.map_eq_flatMap]
      refine List.flatMap_congr fun i hi => ?_
      have hi := List.mem_range.1 hi
      have hzero : (tableEntry (selfTable p) (level + 1) (frameAddr p 0) vaddr i).pte = 0#64 := by
        rw [hread i (by omega), if_neg (by omega)]
      dsimp only
      rw [if_pos hzero]
    have hlast := hread 511 (by decide)
    rw [if_pos rfl] at hlast
    have he : tableEntry (selfTable p) (level + 1) (frameAddr p 0) vaddr 511 =
        ⟨level + 1, walkVpn (level + 1) vaddr 511 <<< riscvPgshift,
          pteCreate (BitVec.ofNat 64 p) pteU⟩ := by
      rw [← hlast]
      rfl
    rw [entries, List.range_succ, List.flatMap_append, hzeros, List.flatMap_singleton]
    dsimp only
    rw [he, if_neg (pteCreate_ne_zero _ _), Entry.phys, hphys]

/-- Empty entries at the start of a walk change nothing. -/
theorem walk_zeros {l rest : List Entry} {st : WalkState} (h : ∀ e ∈ l, e.pte = 0#64) :
    (l ++ rest).foldlM (walkEntry m cargs) (0, st) = rest.foldlM (walkEntry m cargs) (0, st) := by
  induction l with
  | nil => rfl
  | cons e l ih =>
    rw [List.cons_append, List.foldlM_cons, walkEntry, if_pos (h e List.mem_cons_self)]
    exact ih fun e he => h e (List.mem_cons_of_mem _ he)

/-- A range that ends at the top of the address space is empty to the check. -/
theorem not_inUntrusted (htop : cargs.untrustedPtr.toNat + cargs.untrustedSize.toNat = 2 ^ 64)
    (va : Vaddr) : cargs.inUntrusted va = false := by
  have hend : cargs.untrustedPtr + cargs.untrustedSize = 0#64 := by
    apply BitVec.eq_of_toNat_eq
    rw [BitVec.toNat_add, htop]
    rfl
  unfold KeystoneHashEnclave.inUntrusted
  rw [hend, Bool.and_eq_false_iff]
  exact .inr (decide_eq_false fun h => Nat.not_lt_zero _ (BitVec.lt_def.1 h))

/-- The table is accepted if its frame is a page of the EPM that may be mapped. -/
theorem selfTable_accepted {p : ℕ} (hp : p < 2 ^ 52) (hne : frameAddr p 0 ≠ 0#64)
    (hepm : cargs.mapInEpm (frameAddr p 0) = true)
    (hin : cargs.inRuntime (frameAddr p 0) = true ∨ cargs.inUser (frameAddr p 0) = true)
    (htop : cargs.untrustedPtr.toNat + cargs.untrustedSize.toNat = 2 ^ 64) (hashed : List Byte) :
    (validateTable (selfTable p) cargs (frameAddr p 0) hashed).1 ≠ -1 ∧
      ∃ e ∈ leaves (selfTable p) (frameAddr p 0),
        e.va = 0xfffffffffffff000#64 ∧ e.phys = frameAddr p 0 := by
  set pte := pteCreate (BitVec.ofNat 64 p) pteU with hpte
  have hphys : ptePhys pte = frameAddr p 0 := ptePpn_shiftLeft hp (by decide)
  have hnonzero : pte ≠ 0#64 := pteCreate_ne_zero _ _
  obtain ⟨z3, hz3, h3⟩ := selfTable_entries hp 2 0#64
  obtain ⟨z2, hz2, h2⟩ := selfTable_entries hp 1 (walkVpn 3 0#64 511)
  obtain ⟨z1, hz1, h1⟩ := selfTable_entries hp 0 (walkVpn 2 (walkVpn 3 0#64 511) 511)
  have hva : walkVpn 1 (walkVpn 2 (walkVpn 3 0#64 511) 511) 511 <<< riscvPgshift =
      0xfffffffffffff000#64 := by
    decide
  have hall : allEntries (selfTable p) (frameAddr p 0) =
      z3 ++ ⟨3, walkVpn 3 0#64 511 <<< riscvPgshift, pte⟩ ::
        (z2 ++ ⟨2, walkVpn 2 (walkVpn 3 0#64 511) 511 <<< riscvPgshift, pte⟩ ::
          (z1 ++ [⟨1, 0xfffffffffffff000#64, pte⟩])) := by
    rw [allEntries, show riscvPglevelTop = 2 + 1 from rfl, h3, h2, h1, hva]
    rfl
  -- the entries of the two upper levels are tables
  have htable : ∀ level va st, level ≠ 1 →
      walkEntry (selfTable p) cargs (0, st) ⟨level, va, pte⟩ = some (0, st) := by
    intro level va st hlevel
    unfold walkEntry
    rw [if_neg hnonzero, if_neg, if_neg hlevel]
    rintro ⟨hout, -⟩
    rw [Entry.phys, hphys] at hout
    exact hout hepm
  have huser : pte &&& pteU ≠ 0#64 := by
    rw [hpte, pteCreate_and_low (by decide)]
    decide
  have hseen : ¬ frameAddr p 0 ≤ 0#64 := by
    intro hle
    exact hne (BitVec.eq_of_toNat_eq (Nat.le_zero.1 (BitVec.le_def.1 hle)))
  obtain ⟨s, hleaf⟩ : ∃ s, walkEntry (selfTable p) cargs (0, ⟨hashed, 0#64, 0#64⟩)
      ⟨1, 0xfffffffffffff000#64, pte⟩ = some s := by
    have hvalid : ∃ st, validateLeaf (selfTable p) cargs pte 0xfffffffffffff000#64
        (WalkState.hashExtend ⟨hashed, 0#64, 0#64⟩ (leBytes 0xfffffffffffff000#64)) = some st := by
      unfold validateLeaf
      dsimp only
      rw [hphys, if_neg fun h => huser h.2, if_neg fun h => by
        rw [not_inUntrusted htop] at h
        exact Bool.false_ne_true h.1]
      by_cases hruntime : cargs.inRuntime (frameAddr p 0) = true
      · rw [if_pos hruntime]
        exact ⟨_, if_neg hseen⟩
      · rw [if_neg hruntime, if_pos (hin.resolve_left hruntime)]
        exact ⟨_, if_neg hseen⟩
    obtain ⟨st, hst⟩ := hvalid
    unfold walkEntry
    dsimp only
    rw [if_neg hnonzero, if_neg, if_pos rfl, if_pos (rfl : (0 : Int) = 0),
      if_pos (rfl : (0 : Int) = 0), hst]
    · exact ⟨_, rfl⟩
    · rintro ⟨hout, -⟩
      rw [Entry.phys, hphys] at hout
      exact hout hepm
  have hfold : (allEntries (selfTable p) (frameAddr p 0)).foldlM (walkEntry (selfTable p) cargs)
      (0, ⟨hashed, 0#64, 0#64⟩) = some s := by
    rw [hall, walk_zeros hz3, List.foldlM_cons, htable 3 _ _ (by decide), Option.bind_eq_bind,
      Option.bind_some, walk_zeros hz2, List.foldlM_cons, htable 2 _ _ (by decide),
      Option.bind_eq_bind, Option.bind_some, walk_zeros hz1, List.foldlM_cons, hleaf]
    rfl
  obtain ⟨hresult, hs⟩ :=
    (validateTable_follows (selfTable p) cargs (frameAddr p 0) hashed).finished s hfold
  refine ⟨?_, ⟨1, 0xfffffffffffff000#64, pte⟩, ?_, rfl, hphys⟩
  · rw [hresult]
    exact hs
  · refine List.mem_filter.2 ⟨List.mem_filter.2 ⟨?_, decide_eq_true hnonzero⟩,
      decide_eq_true ⟨hnonzero, rfl⟩⟩
    rw [hall]
    simp

/-! ### The untrusted range -/

/-- No page of the EPM that may be mapped lies outside the UTM. -/
def EpmInUtm (cargs : KeystoneHashEnclave) : Prop :=
  ∀ p : Paddr, p.toNat % 4096 = 0 → p ≠ 0#64 → cargs.mapInEpm p = true →
    (cargs.inRuntime p = true ∨ cargs.inUser p = true) → InSpan p cargs.utmPaddr cargs.utmSize

/-- A range that ends below the top of the address space is checked. -/
theorem untrusted_backed_of_below
    (hbelow : cargs.untrustedPtr.toNat + cargs.untrustedSize.toNat < 2 ^ 64) {tb : Addr}
    {hashed : List Byte} (h : (validateTable m cargs tb hashed).1 ≠ -1) :
    UntrustedBacked cargs m tb := by
  intro e he hin
  obtain ⟨hchecked, -⟩ := leaf_checked h he
  exact inSpan_of_mapInUtm (hchecked.untrusted ((inSpan_iff hbelow).2 hin))

/-- A range that ends at the top is not, and a page outside the UTM gets in. -/
theorem not_untrusted_backed {p : ℕ} (hp : p < 2 ^ 52) (hne : frameAddr p 0 ≠ 0#64)
    (hepm : cargs.mapInEpm (frameAddr p 0) = true)
    (hin : cargs.inRuntime (frameAddr p 0) = true ∨ cargs.inUser (frameAddr p 0) = true)
    (hout : ¬ InSpan (frameAddr p 0) cargs.utmPaddr cargs.utmSize)
    (htop : cargs.untrustedPtr.toNat + cargs.untrustedSize.toNat = 2 ^ 64)
    (hpage : cargs.untrustedPtr.toNat ≤ 2 ^ 64 - 4096) (hashed : List Byte) :
    (validateTable (selfTable p) cargs (frameAddr p 0) hashed).1 ≠ -1 ∧
      ¬ UntrustedBacked cargs (selfTable p) (frameAddr p 0) := by
  obtain ⟨haccepted, e, he, hva, hphys⟩ := selfTable_accepted hp hne hepm hin htop hashed
  refine ⟨haccepted, fun hbacked => hout ?_⟩
  have hlast : e.va.toNat = 2 ^ 64 - 4096 := by
    rw [hva]
    rfl
  rw [← hphys]
  exact hbacked e he ⟨by omega, by omega⟩

/-- **The untrusted range is backed by untrusted memory** in every accepted table
iff it ends below the top of the address space (or holds no page, or no page
outside the UTM may be mapped at all). -/
theorem untrusted_backed_iff (cargs : KeystoneHashEnclave)
    (hrange : cargs.untrustedPtr.toNat + cargs.untrustedSize.toNat ≤ 2 ^ 64) :
    (∀ (m : Mem) (tb : Addr) (hashed : List Byte), (validateTable m cargs tb hashed).1 ≠ -1 →
      UntrustedBacked cargs m tb) ↔
    (cargs.untrustedPtr.toNat + cargs.untrustedSize.toNat < 2 ^ 64 ∨
      2 ^ 64 - 4096 < cargs.untrustedPtr.toNat ∨ EpmInUtm cargs) := by
  constructor
  · intro h
    by_contra hnot
    push Not at hnot
    obtain ⟨htop, hpage, hepm⟩ := hnot
    unfold EpmInUtm at hepm
    push Not at hepm
    obtain ⟨p, hp8, hne, hmap, hin, hout⟩ := hepm
    have hlt := p.isLt
    have hframe : p = frameAddr (p.toNat / 4096) 0 := by
      apply BitVec.eq_of_toNat_eq
      rw [frameAddr_toNat (by omega) (by decide)]
      omega
    rw [hframe] at hne hmap hin hout
    have hbad := not_untrusted_backed (by omega) hne hmap hin hout (by omega) hpage []
    exact hbad.2 (h _ _ _ hbad.1)
  · rintro (hbelow | hpage | hepm) m tb hashed haccepted
    · exact untrusted_backed_of_below hbelow haccepted
    · intro e he hin
      -- no page starts that close to the top
      obtain ⟨-, n, hn, hva⟩ := leaf_checked haccepted he
      obtain ⟨hlow, -⟩ := hin
      rw [hva, pageVa_toNat hn] at hlow
      split at hlow <;> omega
    · intro e he hin
      obtain ⟨hchecked, -⟩ := leaf_checked haccepted he
      rcases hchecked.placed with ⟨hplaced, hne⟩ | hutm
      · rcases hchecked.mapped with hmap | hutm
        · refine hepm e.phys ?_ hne hmap hplaced
          show ((e.pte >>> ptePpnShift) <<< riscvPgshift).toNat % 4096 = 0
          rw [BitVec.toNat_shiftLeft, Nat.shiftLeft_eq, riscvPgshift]
          omega
        · exact inSpan_of_mapInUtm hutm
      · exact inSpan_of_mapInUtm hutm

/-- An enclave with the default untrusted address and 2 GiB there. -/
def topArgs : KeystoneHashEnclave where
  epmPaddr := 0x10000#64
  epmSize := 0x8000#64
  utmPaddr := 0x20000#64
  utmSize := 0x80000000#64
  runtimePaddr := 0x13000#64
  userPaddr := 0x14000#64
  freePaddr := 0x18000#64
  untrustedPtr := 0xffffffff80000000#64
  untrustedSize := 0x80000000#64

/-- A page of the EPM at the last page of the untrusted range is accepted. -/
theorem topArgs_not_backed :
    (validateTable (selfTable 0x14) topArgs (frameAddr 0x14 0) []).1 ≠ -1 ∧
      ¬ UntrustedBacked topArgs (selfTable 0x14) (frameAddr 0x14 0) :=
  not_untrusted_backed (by decide) (by decide) (by decide) (by decide) (by decide) (by decide)
    (by decide) []

theorem untrusted_backed_iff_small :
    UntrustedBacked smallTableArgs (smallTable 1 2 4 0 0#64) (frameAddr 0x10 0) :=
  (untrusted_backed_iff smallTableArgs (by decide)).2 (.inl (by decide)) _ _ []
    (smallTable_accepted (.inl rfl) (by decide) [])

end KeystoneSdk
