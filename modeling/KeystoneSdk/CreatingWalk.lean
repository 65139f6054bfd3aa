/-
What a creating walk does, in any memory.

The entries on the way of an address are read off the memory: `middleEntry` in
the root, `leafTableEntry` in the table behind it, and `slot` in the last one.
`missingTables` counts the tables the walk has to make, and is what decreases
at every restart.

* `exec_eptWalkInternal_path` — one start of the walk, by its first missing entry;
* `missingTables_createTable` — a restart finds one table less to make;
* `fillsPath` — a run of the walk, by induction on the missing tables;
* `eptWalkCreate_exact` — what the walk does in every state the loader reaches.
-/
import KeystoneSdk.PageTableMap

open ByteMemory StopM

namespace KeystoneSdk

/-! ### Pages and entries -/

/-- The address of a page. -/
def IsPage (x : Addr) : Prop := ∃ p, p < 2 ^ 52 ∧ x = frameAddr p 0

/-- The address of an entry of a page. -/
def IsEntry (e : Addr) : Prop := ∃ p i, p < 2 ^ 52 ∧ i < 512 ∧ e = frameAddr p (8 * i)

theorem IsPage.entry {t : Addr} (ht : IsPage t) (va : Vaddr) {i : ℕ} (hi : i < 3) :
    IsEntry (t + 8#64 * ptIdx va i) := by
  obtain ⟨p, hp, rfl⟩ := ht
  refine ⟨p, vpn va / 512 ^ i % 512, hp, Nat.mod_lt _ (by norm_num), ?_⟩
  rw [ptIdx_eq_vpn va hi, frameAddr_index]

/-- What an entry refers to is a page. -/
theorem isPage_ptePpn (v : Pte) : IsPage (ptePpn v <<< riscvPgshift) := by
  refine ⟨(ptePpn v).toNat % 2 ^ 52, Nat.mod_lt _ (by norm_num), ?_⟩
  have hv : ptePpn v = BitVec.ofNat 64 (ptePpn v).toNat := by rw [BitVec.ofNat_toNat, BitVec.setWidth_eq]
  rw [hv, ofNat_shiftLeft_pgshift, frameAddr, frameAddr]
  apply BitVec.eq_of_toNat_eq
  simp only [BitVec.toNat_ofNat]
  omega

theorem IsPage.next {x : Addr} (hx : IsPage x) : IsPage (x + pageSize) := by
  obtain ⟨p, hp, rfl⟩ := hx
  rw [frameAddr_add_pageSize]
  by_cases hlt : p + 1 < 2 ^ 52
  · exact ⟨p + 1, hlt, rfl⟩
  · refine ⟨0, by norm_num, ?_⟩
    obtain rfl : p = 2 ^ 52 - 1 := by omega
    rfl

/-- A directory entry made for a page refers to it. -/
theorem IsPage.ptePpn_ptdCreate {x : Addr} (hx : IsPage x) :
    ptePpn (ptdCreate (ppn x)) <<< riscvPgshift = x := by
  obtain ⟨p, hp, rfl⟩ := hx
  rw [ppn_frameAddr hp (by norm_num), ptdCreate, ptePpn_shiftLeft hp (by decide)]

/-! ### The way of an address -/

namespace Keystone

variable (s : Keystone)

/-- The valid bit of the entry at `e` is set. -/
def ValidEntry (e : Addr) : Prop := readLE64 s.mem e &&& pteV ≠ 0#64

instance (e : Addr) : Decidable (s.ValidEntry e) := inferInstanceAs (Decidable (_ ≠ _))

/-- The page the entry at `e` refers to. -/
def target (e : Addr) : Addr := ptePpn (readLE64 s.mem e) <<< riscvPgshift

/-- The entry for `va` in the root. -/
def middleEntry (va : Vaddr) : Addr := s.rootPageTable + 8#64 * ptIdx va 2

/-- The entry for `va` in the table the root refers to. -/
def leafTableEntry (va : Vaddr) : Addr := s.target (s.middleEntry va) + 8#64 * ptIdx va 1

/-- The entry for `va` in the table of leaves. -/
def slot (va : Vaddr) : Addr := s.target (s.leafTableEntry va) + 8#64 * ptIdx va 0

/-- The first directory entry on the way of `va` that is not valid. -/
def firstMissing (va : Vaddr) : Option Addr :=
  if ¬ s.ValidEntry (s.middleEntry va) then some (s.middleEntry va)
  else if ¬ s.ValidEntry (s.leafTableEntry va) then some (s.leafTableEntry va)
  else none

/-- How many tables are missing on the way of `va`: below a missing table
everything is missing. -/
def missingTables (va : Vaddr) : ℕ :=
  if ¬ s.ValidEntry (s.middleEntry va) then 2
  else if ¬ s.ValidEntry (s.leafTableEntry va) then 1
  else 0

/-- The root table and the free list are pages. -/
structure Aligned : Prop where
  root : IsPage s.rootPageTable
  free : IsPage s.epmFreeList

variable {s} {va : Vaddr}

theorem missingTables_le_two : s.missingTables va ≤ 2 := by
  unfold missingTables
  split
  · exact le_refl 2
  · split
    · exact Nat.le_succ 1
    · exact Nat.zero_le 2

theorem firstMissing_eq_none : s.firstMissing va = none ↔ s.missingTables va = 0 := by
  unfold firstMissing missingTables
  split
  · simp
  · split <;> simp

theorem Aligned.middleEntry (hs : s.Aligned) : IsEntry (s.middleEntry va) :=
  hs.root.entry va (by norm_num)

theorem isEntry_leafTableEntry : IsEntry (s.leafTableEntry va) :=
  (isPage_ptePpn _).entry va (by norm_num)

theorem missingTables_of_middle (h : s.ValidEntry (s.middleEntry va)) :
    s.missingTables va = if s.ValidEntry (s.leafTableEntry va) then 0 else 1 := by
  rw [missingTables, if_neg (not_not.mpr h)]
  exact ite_not ..

/-- The first missing entry is the only one, or a second one is missing below it. -/
theorem firstMissing_cases {e : Addr} (h : s.firstMissing va = some e) :
    e = s.middleEntry va ∧ ¬ s.ValidEntry e ∧ s.missingTables va = 2 ∨
      e = s.leafTableEntry va ∧ s.ValidEntry (s.middleEntry va) ∧ ¬ s.ValidEntry e ∧
        s.missingTables va = 1 := by
  unfold firstMissing at h
  unfold missingTables
  by_cases hmiddle : s.ValidEntry (s.middleEntry va)
  · rw [if_neg (not_not.mpr hmiddle)] at h ⊢
    by_cases hleaf : s.ValidEntry (s.leafTableEntry va)
    · rw [if_neg (not_not.mpr hleaf)] at h
      cases h
    · rw [if_pos hleaf] at h ⊢
      obtain rfl := Option.some.inj h
      exact Or.inr ⟨rfl, hmiddle, hleaf, rfl⟩
  · rw [if_pos hmiddle] at h ⊢
    obtain rfl := Option.some.inj h
    exact Or.inl ⟨rfl, hmiddle, rfl⟩

/-! ### Making a table -/

variable {e e' : Addr}

@[simp] theorem createTable_rootPageTable :
    (s.createTable e).rootPageTable = s.rootPageTable := rfl

@[simp] theorem createTable_epmFreeList :
    (s.createTable e).epmFreeList = s.epmFreeList + pageSize := rfl

@[simp] theorem createTable_middleEntry :
    (s.createTable e).middleEntry va = s.middleEntry va := rfl

theorem Aligned.createTable (hs : s.Aligned) : (s.createTable e).Aligned :=
  ⟨hs.root, hs.free.next⟩

theorem readLE64_createTable (he : IsEntry e) (he' : IsEntry e') :
    readLE64 (s.createTable e).mem e' =
      if e' = e then ptdCreate (ppn s.epmFreeList) else readLE64 s.mem e' := by
  obtain ⟨p, i, hp, hi, rfl⟩ := he
  obtain ⟨q, j, hq, hj, rfl⟩ := he'
  rw [Keystone.createTable, popPage_mem, readLE64_writeLE64_frame _ _ hp hq hi hj]
  refine if_congr ⟨?_, ?_⟩ rfl rfl
  · rintro ⟨rfl, rfl⟩
    rfl
  · intro h
    obtain ⟨h1, h2⟩ := frameAddr_inj hq hp (by omega) (by omega) h
    omega

theorem validEntry_createTable (he : IsEntry e) : (s.createTable e).ValidEntry e := by
  rw [ValidEntry, readLE64_createTable he he, if_pos rfl]
  exact pteCreate_valid _ _

theorem target_createTable (he : IsEntry e) (hfree : IsPage s.epmFreeList) :
    (s.createTable e).target e = s.epmFreeList := by
  rw [target, readLE64_createTable he he, if_pos rfl, hfree.ptePpn_ptdCreate]

theorem readLE64_createTable_of_ne (he : IsEntry e) (he' : IsEntry e') (hne : e' ≠ e) :
    readLE64 (s.createTable e).mem e' = readLE64 s.mem e' := by
  rw [readLE64_createTable he he', if_neg hne]

/-- Making a table changes the bytes of its entry only. -/
theorem createTable_mem_of_ne {x : Addr} (h : (s.createTable e).mem x ≠ s.mem x) :
    (x - e).toNat < 8 := by
  rw [Keystone.createTable, popPage_mem] at h
  by_contra hout
  exact h (if_neg hout)

/-- After the missing entry of the root was made, the walk goes on in the new page. -/
theorem leafTableEntry_createTable_middle (hs : s.Aligned) :
    (s.createTable (s.middleEntry va)).leafTableEntry va = s.epmFreeList + 8#64 * ptIdx va 1 := by
  rw [leafTableEntry, createTable_middleEntry, target_createTable hs.middleEntry hs.free]

theorem missingTables_createTable_middle (hs : s.Aligned) :
    (s.createTable (s.middleEntry va)).missingTables va =
      if (s.createTable (s.middleEntry va)).ValidEntry (s.epmFreeList + 8#64 * ptIdx va 1) then 0
      else 1 := by
  have hvalid : (s.createTable (s.middleEntry va)).ValidEntry
      ((s.createTable (s.middleEntry va)).middleEntry va) := by
    rw [createTable_middleEntry]
    exact validEntry_createTable hs.middleEntry
  rw [missingTables_of_middle hvalid, leafTableEntry_createTable_middle hs]

/-- Making the table of leaves leaves the way to it as it is. -/
theorem leafTableEntry_createTable_leaf (hs : s.Aligned) (hmiddle : s.ValidEntry (s.middleEntry va))
    (hleaf : ¬ s.ValidEntry (s.leafTableEntry va)) :
    (s.createTable (s.leafTableEntry va)).ValidEntry (s.middleEntry va) ∧
      (s.createTable (s.leafTableEntry va)).leafTableEntry va = s.leafTableEntry va := by
  have hne : s.middleEntry va ≠ s.leafTableEntry va := by
    intro he
    rw [he] at hmiddle
    exact hleaf hmiddle
  have hread : readLE64 (s.createTable (s.leafTableEntry va)).mem (s.middleEntry va) =
      readLE64 s.mem (s.middleEntry va) :=
    readLE64_createTable_of_ne isEntry_leafTableEntry hs.middleEntry hne
  constructor
  · rw [ValidEntry, hread]
    exact hmiddle
  · rw [leafTableEntry, createTable_middleEntry, target, hread]
    rfl

/-- The page on top of the free list, where it becomes a directory for `va`: its
entry for `va` is empty, and is not the entry in the root. -/
structure FreshFor (s : Keystone) (va : Vaddr) : Prop where
  empty : ¬ s.ValidEntry (s.epmFreeList + 8#64 * ptIdx va 1)
  ne : s.epmFreeList + 8#64 * ptIdx va 1 ≠ s.middleEntry va

/-- **A restart has fewer tables to make**, in any memory. -/
theorem missingTables_createTable_lt (hs : s.Aligned) (he : s.firstMissing va = some e) :
    (s.createTable e).missingTables va < s.missingTables va := by
  rcases firstMissing_cases he with ⟨rfl, _, htwo⟩ | ⟨rfl, hmiddle, hleaf, hone⟩
  · rw [htwo, missingTables_createTable_middle hs]
    split <;> omega
  · obtain ⟨hvalid, hentry⟩ := leafTableEntry_createTable_leaf hs hmiddle hleaf
    rw [hone, missingTables_of_middle hvalid, hentry,
      if_pos (validEntry_createTable isEntry_leafTableEntry)]
    exact Nat.one_pos

/-- **A restart has exactly one table less to make** where fresh pages are empty. -/
theorem missingTables_createTable (hs : s.Aligned) (he : s.firstMissing va = some e)
    (hfresh : s.missingTables va = 2 → s.FreshFor va) :
    (s.createTable e).missingTables va + 1 = s.missingTables va := by
  have hlt := missingTables_createTable_lt hs he
  rcases firstMissing_cases he with ⟨rfl, _, htwo⟩ | ⟨_, _, _, hone⟩
  · have hempty : ¬ (s.createTable (s.middleEntry va)).ValidEntry
        (s.epmFreeList + 8#64 * ptIdx va 1) := by
      rw [ValidEntry,
        readLE64_createTable_of_ne hs.middleEntry (hs.free.entry va (by norm_num))
          (hfresh htwo).ne]
      exact (hfresh htwo).empty
    rw [htwo, missingTables_createTable_middle hs, if_neg hempty]
  · omega

end Keystone

/-! ### The walk -/

section Walk

variable {s : Keystone} {va : Vaddr}

/-- One start of the walk, in any memory. -/
theorem exec_eptWalkInternal_path (n : ℕ) (va : Vaddr) (create : Bool) :
    exec (eptWalkInternal (n + 1) va create) s =
      match s.firstMissing va with
      | some e =>
        exec (if create then eptContinueWalkCreate (eptWalkInternal n va true) e
          else return none) s
      | none => (.ok (some (s.slot va)), s) := by
  rw [exec_eptWalkInternal_succ, exec_eptWalkLoop_succ, Keystone.firstMissing]
  by_cases hmiddle : s.ValidEntry (s.middleEntry va)
  · rw [if_neg (not_not.mpr hmiddle)]
    refine (if_neg hmiddle).trans ?_
    rw [exec_eptWalkLoop_succ]
    by_cases hleaf : s.ValidEntry (s.leafTableEntry va)
    · rw [if_neg (not_not.mpr hleaf)]
      exact if_neg hleaf
    · rw [if_pos hleaf]
      exact if_pos (not_not.mp hleaf)
  · rw [if_pos hmiddle]
    exact if_pos (not_not.mp hmiddle)

/-- A walk on whose way nothing is missing. -/
theorem exec_eptWalkInternal_complete (h : s.missingTables va = 0) (n : ℕ) (create : Bool) :
    exec (eptWalkInternal (n + 1) va create) s = (.ok (some (s.slot va)), s) := by
  rw [exec_eptWalkInternal_path, Keystone.firstMissing_eq_none.mpr h]

/-- A creating walk that has a table to make. -/
theorem exec_eptWalkInternal_missing {e : Addr} (h : s.firstMissing va = some e) (n : ℕ) :
    exec (eptWalkInternal (n + 1) va true) s =
      exec (eptWalkInternal n va true) (s.createTable e) := by
  rw [exec_eptWalkInternal_path, h]
  exact exec_eptContinueWalkCreate _ _

/-- **The creating walk ends in any memory**: it starts once more for each table
that is missing, at most. -/
theorem eptWalkInternal_ends (hs : s.Aligned) {n : ℕ} (hn : s.missingTables va < n) :
    ∃ slot s', exec (eptWalkInternal n va true) s = (.ok (some slot), s') := by
  induction n generalizing s with
  | zero => omega
  | succ n ih =>
    rcases he : s.firstMissing va with _ | e
    · exact ⟨_, _, exec_eptWalkInternal_complete (Keystone.firstMissing_eq_none.mp he) n true⟩
    · have hlt := Keystone.missingTables_createTable_lt hs he
      rw [exec_eptWalkInternal_missing he]
      exact ih hs.createTable (by omega)

/-- `s'` is `s` with the missing tables on the way of `va` made, and nothing else. -/
structure FillsPath (s : Keystone) (va : Vaddr) (s' : Keystone) : Prop where
  /-- The pages are taken off the free list one after the other. -/
  fields : s' = { s with
    mem := s'.mem
    epmFreeList := s.epmFreeList + BitVec.ofNat 64 (4096 * s.missingTables va)
    epmPages := s.epmPages ++ (List.range (s.missingTables va)).map fun k =>
      s.epmFreeList + BitVec.ofNat 64 (4096 * k) }
  complete : s'.missingTables va = 0
  /-- A byte that changed lies in a directory entry that became valid. -/
  memory : ∀ x, s'.mem x ≠ s.mem x → ∃ e, (e = s'.middleEntry va ∨ e = s'.leafTableEntry va) ∧
    ¬ s.ValidEntry e ∧ s'.ValidEntry e ∧ (x - e).toNat < 8
  /-- Entries that were valid are as before. -/
  kept : ∀ e, IsEntry e → s.ValidEntry e → readLE64 s'.mem e = readLE64 s.mem e

theorem fillsPath_refl (h : s.missingTables va = 0) : FillsPath s va s where
  fields := by
    rw [h]
    simp
  complete := h
  memory := fun _ hx => absurd rfl hx
  kept := fun _ _ _ => rfl

theorem FillsPath.rootPageTable {s' : Keystone} (h : FillsPath s va s') :
    s'.rootPageTable = s.rootPageTable := by
  rw [h.fields]

/-- The way to the table of leaves, when its first entry was there before. -/
theorem FillsPath.leafTableEntry {s' : Keystone} (h : FillsPath s va s') (hs : s.Aligned)
    (hmiddle : s.ValidEntry (s.middleEntry va)) :
    s'.leafTableEntry va = s.leafTableEntry va := by
  have hroot : s'.middleEntry va = s.middleEntry va := by
    rw [Keystone.middleEntry, h.rootPageTable, Keystone.middleEntry]
  rw [Keystone.leafTableEntry, Keystone.target, hroot, h.kept _ hs.middleEntry hmiddle]
  rfl

/-- Making the first missing table, and then the others. -/
theorem FillsPath.createTable {e : Addr} {s' : Keystone} (hs : s.Aligned)
    (he : s.firstMissing va = some e)
    (hm : (s.createTable e).missingTables va + 1 = s.missingTables va)
    (h : FillsPath (s.createTable e) va s') : FillsPath s va s' := by
  have hentry : IsEntry e := by
    rcases Keystone.firstMissing_cases he with ⟨rfl, _⟩ | ⟨rfl, _⟩
    · exact hs.middleEntry
    · exact Keystone.isEntry_leafTableEntry
  have hmissing : ¬ s.ValidEntry e := by
    rcases Keystone.firstMissing_cases he with ⟨_, hmissing, _⟩ | ⟨_, _, hmissing, _⟩
    · exact hmissing
    · exact hmissing
  have hmade : (s.createTable e).ValidEntry e := Keystone.validEntry_createTable hentry
  -- other entries are as before
  have hother : ∀ e', IsEntry e' → e' ≠ e →
      readLE64 (s.createTable e).mem e' = readLE64 s.mem e' :=
    fun e' he' hne => Keystone.readLE64_createTable_of_ne hentry he' hne
  refine ⟨?_, h.complete, ?_, ?_⟩
  · have hfree : s.epmFreeList + pageSize +
          BitVec.ofNat 64 (4096 * (s.createTable e).missingTables va) =
        s.epmFreeList + BitVec.ofNat 64 (4096 * s.missingTables va) := by
      rw [BitVec.add_assoc, pageSize_eq, ← BitVec.ofNat_add, ← hm, Nat.mul_succ, Nat.add_comm]
    have hpages : s.epmPages ++ [s.epmFreeList] ++
          ((List.range ((s.createTable e).missingTables va)).map fun k =>
            s.epmFreeList + pageSize + BitVec.ofNat 64 (4096 * k)) =
        s.epmPages ++ (List.range (s.missingTables va)).map fun k =>
          s.epmFreeList + BitVec.ofNat 64 (4096 * k) := by
      rw [← hm, List.range_succ_eq_map, List.map_cons, List.map_map, List.append_assoc]
      simp only [List.singleton_append, Nat.mul_zero, BitVec.add_zero]
      refine congrArg (fun l => s.epmPages ++ s.epmFreeList :: l) (List.map_congr_left fun k _ => ?_)
      rw [BitVec.add_assoc, pageSize_eq, ← BitVec.ofNat_add, Function.comp_apply,
        Nat.succ_eq_add_one, Nat.mul_succ, Nat.add_comm]
    refine h.fields.trans ?_
    rw [← hfree, ← hpages]
    rfl
  · intro x hx
    by_cases hx' : s'.mem x = (s.createTable e).mem x
    · -- the byte belongs to the first table's entry
      rw [hx'] at hx
      refine ⟨e, ?_, hmissing, ?_, Keystone.createTable_mem_of_ne hx⟩
      · rcases Keystone.firstMissing_cases he with ⟨rfl, _⟩ | ⟨rfl, hmiddle, hleaf, _⟩
        · refine Or.inl ?_
          rw [Keystone.middleEntry, Keystone.middleEntry, h.rootPageTable,
            Keystone.createTable_rootPageTable]
        · obtain ⟨hvalid, hway⟩ := Keystone.leafTableEntry_createTable_leaf hs hmiddle hleaf
          exact Or.inr (hway.symm.trans (h.leafTableEntry hs.createTable hvalid).symm)
      · rw [Keystone.ValidEntry, h.kept e hentry hmade]
        exact hmade
    · obtain ⟨e', hway, hbefore, hafter, hin⟩ := h.memory x hx'
      have hentry' : IsEntry e' := by
        rcases hway with rfl | rfl
        · rw [Keystone.middleEntry, h.rootPageTable]
          exact hs.root.entry va (by norm_num)
        · exact Keystone.isEntry_leafTableEntry
      refine ⟨e', hway, fun hvalid => ?_, hafter, hin⟩
      have hne : e' ≠ e := by
        rintro rfl
        exact hmissing hvalid
      rw [Keystone.ValidEntry, hother e' hentry' hne] at hbefore
      exact hbefore hvalid
  · intro e' he' hvalid
    have hne : e' ≠ e := by
      rintro rfl
      exact hmissing hvalid
    have hvalid' : (s.createTable e).ValidEntry e' := by
      rw [Keystone.ValidEntry, hother e' he' hne]
      exact hvalid
    rw [h.kept e' he' hvalid', hother e' he' hne]

/-- A creating walk for `va` from `s` that ends in `s'`. -/
structure WalkCreates (s : Keystone) (va : Vaddr) (s' : Keystone) : Prop where
  fills : FillsPath s va s'
  /-- It is started once more than tables are missing, and returns the slot. -/
  returns : ∀ n, s.missingTables va < n →
    exec (eptWalkInternal n va true) s = (.ok (some (s'.slot va)), s')
  /-- Fewer starts are not enough. -/
  starts : ∀ n, n ≤ s.missingTables va →
    (exec (eptWalkInternal n va true) s).1 = .error .diverges

/-- **What a creating walk does** when the page it makes a directory is fresh. -/
theorem walkCreates_exists (hs : s.Aligned) (hfresh : s.missingTables va = 2 → s.FreshFor va) :
    ∃ s', WalkCreates s va s' := by
  induction hm : s.missingTables va generalizing s with
  | zero =>
    refine ⟨s, fillsPath_refl hm, fun n hn => ?_, fun n hn => ?_⟩
    · obtain ⟨n, rfl⟩ := Nat.exists_eq_succ_of_ne_zero (show n ≠ 0 by omega)
      exact exec_eptWalkInternal_complete hm n true
    · obtain rfl : n = 0 := by omega
      rfl
  | succ m ih =>
    obtain ⟨e, he⟩ : ∃ e, s.firstMissing va = some e := by
      refine Option.ne_none_iff_exists'.mp fun hnone => ?_
      rw [Keystone.firstMissing_eq_none.mp hnone] at hm
      cases hm
    have hstep := Keystone.missingTables_createTable hs he hfresh
    have hle : s.missingTables va ≤ 2 := Keystone.missingTables_le_two
    have hm' : (s.createTable e).missingTables va = m := by omega
    have htwo' : (s.createTable e).missingTables va ≠ 2 := by omega
    obtain ⟨s', hw⟩ := ih hs.createTable (fun htwo => absurd htwo htwo') hm'
    refine ⟨s', hw.fills.createTable hs he hstep, fun n hn => ?_, fun n hn => ?_⟩
    · obtain ⟨n, rfl⟩ := Nat.exists_eq_succ_of_ne_zero (show n ≠ 0 by omega)
      rw [exec_eptWalkInternal_missing he]
      exact hw.returns n (by omega)
    · cases n with
      | zero => rfl
      | succ n =>
        rw [exec_eptWalkInternal_missing he]
        exact hw.starts n (by omega)

/-- Addresses of one 2 MiB region go through the same tables. -/
theorem missingTables_congr {va' : Vaddr} (h : va'.toNat / 2 ^ 21 = va.toNat / 2 ^ 21) :
    s.missingTables va' = s.missingTables va := by
  have hvpn : vpn va' / 512 = vpn va / 512 := by
    unfold vpn
    omega
  have hmiddle : s.middleEntry va' = s.middleEntry va := by
    rw [Keystone.middleEntry, Keystone.middleEntry, ptIdx_eq_vpn va' (by norm_num),
      ptIdx_eq_vpn va (by norm_num), pow_succ' 512 1, ← Nat.div_div_eq_div_mul,
      ← Nat.div_div_eq_div_mul, hvpn]
  have hleaf : s.leafTableEntry va' = s.leafTableEntry va := by
    rw [Keystone.leafTableEntry, Keystone.leafTableEntry, hmiddle, ptIdx_eq_vpn va' (by norm_num),
      ptIdx_eq_vpn va (by norm_num), pow_one, hvpn]
  rw [Keystone.missingTables, Keystone.missingTables, hmiddle, hleaf]

end Walk

/-! ### States of the loader -/

section Reachable

variable {L : Layout} {s : Keystone} {a : AddressSpace} {va : Vaddr}

theorem isPage_frameAddr (p : ℕ) : IsPage (frameAddr p 0) := by
  refine ⟨p % 2 ^ 52, Nat.mod_lt _ (by norm_num), ?_⟩
  apply BitVec.eq_of_toNat_eq
  simp only [frameAddr, BitVec.toNat_ofNat]
  omega

theorem Repr.aligned (hr : Repr L s a) : s.Aligned where
  root := by
    rw [hr.root]
    exact isPage_frameAddr _
  free := by
    rw [hr.epmFree]
    exact isPage_frameAddr _

/-- A page of the EPM that has not been used yet is fresh. -/
theorem Repr.freshFor (hr : Repr L s a) (hroom : L.InEpm s.epmFreeList) : s.FreshFor va := by
  have hepm := L.epm_le
  have hfits := hr.fits.1
  have hused : a.epmUsed < L.epmPages := by
    by_contra hfull
    rw [hr.epmFree, show a.epmUsed = L.epmPages by omega] at hroom
    exact not_in_frames hepm L.epmPages_lt hroom
  have hmod : vpn va / 512 ^ 1 % 512 < 512 := Nat.mod_lt _ (by norm_num)
  have hmod' : vpn va / 512 ^ 2 % 512 < 512 := Nat.mod_lt _ (by norm_num)
  constructor
  · have hzero : ∀ o, o < 4096 → s.mem (frameAddr (L.epmFrame + a.epmUsed) o) = 0 :=
      fun o ho => hr.fresh (f := .epm a.epmUsed) hused (lt_irrefl _) ho
    rw [Keystone.ValidEntry, hr.epmFree, ptIdx_eq_vpn va (by norm_num), frameAddr_index,
      readLE64_frame_zero hmod hzero]
    exact not_not.mpr BitVec.zero_and
  · rw [Keystone.middleEntry, hr.epmFree, hr.root, ptIdx_eq_vpn va (by norm_num),
      ptIdx_eq_vpn va (by norm_num), frameAddr_index, frameAddr_index]
    intro he
    have hframe := (frameAddr_inj (by omega) (by omega) (by omega) (by omega) he).1
    have hroot := hr.wf.tab_lt hr.wf.root
    omega

/-- **The creating walk, in every state the loader reaches**: it ends after three
starts at most.  When the page that becomes a directory is one of the EPM not
used yet (it is read only where two tables are missing), it is started once
more for each missing table, takes that many pages, changes nothing but the
entries that refer to them, and returns the slot that a walk finds afterwards;
then nothing is missing in the whole 2 MiB region. -/
theorem eptWalkCreate_exact (L : Layout) (s : Keystone) (hs : Reachable L s) (va : Vaddr) :
    s.missingTables va ≤ 2 ∧
      (∀ n, s.missingTables va < n →
        ∃ slot s', exec (eptWalkInternal n va true) s = (.ok (some slot), s')) ∧
      ((s.missingTables va = 2 → L.InEpm s.epmFreeList) →
        ∃ s', WalkCreates s va s' ∧
          exec (eptWalkCreate va) s = (.ok (some (s'.slot va)), s') ∧
          exec (eptWalk va) s' = (.ok (some (s'.slot va)), s') ∧
          ∀ va', va'.toNat / 2 ^ 21 = va.toNat / 2 ^ 21 →
            exec (eptWalkCreate va') s' = (.ok (some (s'.slot va')), s')) := by
  obtain ⟨a, hr⟩ := hs.repr
  have hle : s.missingTables va ≤ 2 := Keystone.missingTables_le_two
  refine ⟨hle, fun n hn => eptWalkInternal_ends hr.aligned hn, fun hroom => ?_⟩
  obtain ⟨s', hw⟩ := walkCreates_exists hr.aligned fun htwo => hr.freshFor (hroom htwo)
  refine ⟨s', hw, hw.returns 3 (by omega), ?_, fun va' hva' => ?_⟩
  · exact exec_eptWalkInternal_complete hw.fills.complete 0 false
  · refine exec_eptWalkInternal_complete ?_ 2 true
    rw [missingTables_congr hva']
    exact hw.fills.complete

/-- The walk for the first page of an empty address space makes two tables. -/
theorem eptWalkCreate_exact_small :
    smallState.missingTables 0#64 = 2 ∧
      ∃ s', WalkCreates smallState 0#64 s' ∧ s'.epmFreeList = 0x13000#64 := by
  have htwo : smallState.missingTables 0#64 = 2 := by decide
  obtain ⟨_, _, hwalk⟩ :=
    eptWalkCreate_exact smallLayout smallState smallState_reachable 0#64
  obtain ⟨s', hw, _⟩ := hwalk fun _ => by decide
  refine ⟨htwo, s', hw, ?_⟩
  rw [hw.fills.fields, htwo]
  rfl

end Reachable

end KeystoneSdk
