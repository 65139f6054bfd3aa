/-
The loader's memory represents the abstract address space.

`Repr L s a` says that the loader state `s` represents the address space `a`
when the two buffers lie where the layout `L` puts them: the tables in memory
hold the entries of `a`, the mapped pages hold its bytes, everything not yet
popped from a free list is zero, and the free lists point behind what is used.

* `Repr.createTable` — a directory entry with a fresh table behind it;
* `Repr.mapPage` — a leaf entry with a fresh page behind it;
* `Repr.writePage` — a write of a mapped page;
* `Repr.init` — a root table in two zeroed buffers.
-/
import KeystoneSdk.AddressSpace

open ByteMemory StopM

namespace KeystoneSdk

/-- Where the EPM and UTM buffers are: two disjoint ranges of page frames.
The sizes are 64-bit numbers of bytes. -/
structure Layout where
  epmFrame : ℕ
  epmPages : ℕ
  utmFrame : ℕ
  utmPages : ℕ
  /-- Where the UTM free list starts.  Before the UTM is allocated it has no
  pages, and its free list is any word. -/
  utmBase : Vaddr
  utmBase_eq : 0 < utmPages → utmBase = frameAddr utmFrame 0
  epm_le : epmFrame + epmPages ≤ 2 ^ 52
  utm_le : utmFrame + utmPages ≤ 2 ^ 52
  epmPages_lt : epmPages < 2 ^ 52
  utmPages_lt : utmPages < 2 ^ 52
  disjoint : ∀ i j, i < epmPages → j < utmPages → epmFrame + i ≠ utmFrame + j

/-- Page `j` of the UTM free list. -/
def Layout.utmPage (L : Layout) (j : ℕ) : Vaddr := L.utmBase + BitVec.ofNat 64 (4096 * j)

theorem Layout.utmPage_eq {L : Layout} (h : 0 < L.utmPages) (j : ℕ) :
    L.utmPage j = frameAddr (L.utmFrame + j) 0 := by
  rw [Layout.utmPage, L.utmBase_eq h, frameAddr, frameAddr, ← BitVec.ofNat_add]
  congr 1
  omega

theorem Layout.utmPage_add_pageSize (L : Layout) (j : ℕ) :
    L.utmPage j + pageSize = L.utmPage (j + 1) := by
  rw [Layout.utmPage, Layout.utmPage, BitVec.add_assoc, pageSize_eq, ← BitVec.ofNat_add]
  congr 2

/-- The number of the physical page frame. -/
def Frame.number (L : Layout) : Frame → ℕ
  | .epm k => L.epmFrame + k
  | .utm j => L.utmFrame + j

/-- The frame lies in its buffer. -/
def Frame.Inside (L : Layout) : Frame → Prop
  | .epm k => k < L.epmPages
  | .utm j => j < L.utmPages

theorem Frame.Inside.number_lt {L : Layout} {fr : Frame} (h : fr.Inside L) :
    fr.number L < 2 ^ 52 := by
  have h1 := L.epm_le
  have h2 := L.utm_le
  cases fr <;> simp only [Frame.Inside, Frame.number] at h ⊢ <;> omega

/-- Frames of the buffers are told apart by their numbers. -/
theorem Frame.number_inj {L : Layout} {fr fr' : Frame} (h : fr.Inside L) (h' : fr'.Inside L)
    (he : fr.number L = fr'.number L) : fr = fr' := by
  cases fr with
  | epm k =>
    cases fr' with
    | epm k' =>
      simp only [Frame.number] at he
      rw [show k = k' by omega]
    | utm j => exact absurd he (L.disjoint k j h h')
  | utm j =>
    cases fr' with
    | epm k => exact absurd he.symm (L.disjoint k j h' h)
    | utm j' =>
      simp only [Frame.number] at he
      rw [show j = j' by omega]

/-- The page table entry of a mapped page. -/
def Leaf.pte (L : Layout) (lf : Leaf) : Pte :=
  pteCreate (BitVec.ofNat 64 (lf.frame.number L)) lf.flags

namespace AddressSpace

/-- The entry with prefix `q` in a table at height `h`. -/
def entry (L : Layout) (a : AddressSpace) : ℕ → ℕ → Pte
  | 0, v =>
    match a.leaf v with
    | none => 0#64
    | some lf => lf.pte L
  | h + 1, q =>
    match a.tab h q with
    | none => 0#64
    | some k => ptdCreate (BitVec.ofNat 64 (L.epmFrame + k))

/-- The address space fits into the buffers. -/
def Fits (L : Layout) (a : AddressSpace) : Prop :=
  a.epmUsed ≤ L.epmPages ∧ a.utmUsed ≤ L.utmPages

end AddressSpace

/-- The loader state `s` represents the address space `a`. -/
structure Repr (L : Layout) (s : Keystone) (a : AddressSpace) : Prop where
  wf : a.WF
  fits : a.Fits L
  root : s.rootPageTable = frameAddr L.epmFrame 0
  epmFree : s.epmFreeList = frameAddr (L.epmFrame + a.epmUsed) 0
  utmFree : s.utmFreeList = L.utmPage a.utmUsed
  entries : ∀ {h q k i}, a.tab h q = some k → i < 512 →
    readLE64 s.mem (frameAddr (L.epmFrame + k) (8 * i)) = a.entry L h (512 * q + i)
  bytes : ∀ {v lf o}, a.leaf v = some lf → o < 4096 →
    s.mem (frameAddr (lf.frame.number L) o) = lf.bytes o
  fresh : ∀ {f : Frame} {o}, f.Inside L → ¬ a.Holds f → o < 4096 →
    s.mem (frameAddr (f.number L) o) = 0
  epmLog : s.epmPages = (List.range a.epmUsed).map fun k => frameAddr (L.epmFrame + k) 0
  utmLog : s.utmPages = (List.range a.utmUsed).map L.utmPage

/-- The page right behind a buffer has been taken from its free list. -/
def Overrun (L : Layout) (s : Keystone) : Prop :=
  frameAddr (L.epmFrame + L.epmPages) 0 ∈ s.epmPages ∨
    L.utmPage L.utmPages ∈ s.utmPages

namespace AddressSpace

variable {L : Layout} {a : AddressSpace}

theorem entry_leaf_none {v : ℕ} (h : a.leaf v = none) : a.entry L 0 v = 0#64 := by
  rw [entry, h]

theorem entry_leaf_some {v : ℕ} {lf : Leaf} (h : a.leaf v = some lf) :
    a.entry L 0 v = lf.pte L := by
  rw [entry, h]

theorem entry_tab_none {h q : ℕ} (hk : a.tab h q = none) : a.entry L (h + 1) q = 0#64 := by
  rw [entry, hk]

theorem entry_tab_some {h q k : ℕ} (hk : a.tab h q = some k) :
    a.entry L (h + 1) q = ptdCreate (BitVec.ofNat 64 (L.epmFrame + k)) := by
  rw [entry, hk]

theorem addTable_holds {h q : ℕ} {fr : Frame} (hf : a.Holds fr) : (a.addTable h q).Holds fr := by
  cases fr with
  | epm k => exact Nat.lt_succ_of_lt hf
  | utm j => exact hf

theorem entry_addTable (h q h' x : ℕ) :
    (a.addTable h q).entry L h' x =
      if h' = h + 1 ∧ x = q then ptdCreate (BitVec.ofNat 64 (L.epmFrame + a.epmUsed))
      else a.entry L h' x := by
  cases h' with
  | zero =>
    rw [if_neg (by omega)]
    rfl
  | succ h' =>
    by_cases hc : h' = h ∧ x = q
    · obtain ⟨rfl, rfl⟩ := hc
      rw [if_pos ⟨rfl, rfl⟩, entry_tab_some addTable_tab_self]
    · rw [if_neg (by omega), entry, addTable_tab_of_ne hc, entry]

theorem entry_fill (v : ℕ) (f : ℕ → Byte) (h x : ℕ) :
    (a.fill v f).entry L h x = a.entry L h x := by
  cases h with
  | succ h => rfl
  | zero =>
    rw [entry, entry]
    rcases hl : (a.fill v f).leaf x with _ | lf
    · by_cases hx : x = v
      · subst hx
        simp only [fill, if_true, Option.map_eq_none_iff] at hl
        rw [hl]
      · rw [fill_leaf_of_ne hx] at hl
        rw [hl]
    · obtain ⟨lf', hl', hfr, hfl⟩ := fill_leaf_cases hl
      rw [hl']
      show lf.pte L = lf'.pte L
      rw [Leaf.pte, Leaf.pte, hfr, hfl]

/-- Nothing hangs below a table that does not exist yet. -/
theorem entry_addTable_below (hw : a.WF) {h q i : ℕ} (hh : h < 2) (hnone : a.tab h q = none) (hi : i < 512) :
    (a.addTable h q).entry L h (512 * q + i) = 0#64 := by
  rw [entry_addTable, if_neg (by omega)]
  have hdiv : (512 * q + i) / 512 = q := by omega
  cases h with
  | zero =>
    rcases hl : a.leaf (512 * q + i) with _ | lf
    · exact entry_leaf_none hl
    · obtain ⟨k, hk⟩ := hw.leaf_parent hl
      rw [hdiv, hnone] at hk
      cases hk
  | succ h =>
    rcases hl : a.tab h (512 * q + i) with _ | k
    · exact entry_tab_none hl
    · obtain ⟨k', hk'⟩ := hw.tab_parent hl (by omega)
      rw [hdiv, hnone] at hk'
      cases hk'

end AddressSpace

theorem range_succ_map {β : Type} (f : ℕ → β) (n : ℕ) :
    (List.range (n + 1)).map f = (List.range n).map f ++ [f n] := by
  rw [List.range_succ, List.map_append]
  rfl

/-- The state after `__ept_continue_walk_create` stored its entry and popped
its page. -/
def Keystone.createTable (s : Keystone) (pte : Addr) : Keystone :=
  { s with mem := writeLE64 s.mem pte (ptdCreate (ppn s.epmFreeList)) }.popPage .epm

/-- The state after `allocPage` popped a page and stored its entry. -/
def Keystone.mapPage (s : Keystone) (l : FreeList) (pte : Addr) (flags : BitVec 64) : Keystone :=
  { s.popPage l with mem := writeLE64 s.mem pte (pteCreate (s.freeList l >>> pageBits) flags) }

section MapPage

variable (s : Keystone) (l : FreeList) (pte : Addr) (flags : BitVec 64)

theorem Keystone.mapPage_mem : (s.mapPage l pte flags).mem =
    writeLE64 s.mem pte (pteCreate (s.freeList l >>> pageBits) flags) := rfl

theorem Keystone.mapPage_rootPageTable :
    (s.mapPage l pte flags).rootPageTable = s.rootPageTable := by
  cases l <;> simp [Keystone.mapPage, Keystone.popPage]

theorem Keystone.mapPage_epmFreeList : (s.mapPage l pte flags).epmFreeList =
    if l = .epm then s.epmFreeList + pageSize else s.epmFreeList := by
  cases l <;> simp [Keystone.mapPage, Keystone.popPage]

theorem Keystone.mapPage_utmFreeList : (s.mapPage l pte flags).utmFreeList =
    if l = .utm then s.utmFreeList + pageSize else s.utmFreeList := by
  cases l <;> simp [Keystone.mapPage, Keystone.popPage]

theorem Keystone.mapPage_epmPages : (s.mapPage l pte flags).epmPages =
    if l = .epm then s.epmPages ++ [s.epmFreeList] else s.epmPages := by
  cases l <;> simp [Keystone.mapPage, Keystone.popPage]

theorem Keystone.mapPage_utmPages : (s.mapPage l pte flags).utmPages =
    if l = .utm then s.utmPages ++ [s.utmFreeList] else s.utmPages := by
  cases l <;> simp [Keystone.mapPage, Keystone.popPage]

end MapPage

namespace Repr

open AddressSpace

variable {L : Layout} {s : Keystone} {a : AddressSpace}

theorem inside_of_holds (hr : Repr L s a) {f : Frame} (h : a.Holds f) : f.Inside L := by
  have h1 := hr.fits.1
  have h2 := hr.fits.2
  cases f <;> simp only [AddressSpace.Holds, Frame.Inside] at h ⊢ <;> omega

theorem tab_inside (hr : Repr L s a) {h q k : ℕ} (hk : a.tab h q = some k) :
    (Frame.epm k).Inside L :=
  hr.inside_of_holds (f := .epm k) (hr.wf.tab_lt hk)

theorem tab_number_lt (hr : Repr L s a) {h q k : ℕ} (hk : a.tab h q = some k) :
    L.epmFrame + k < 2 ^ 52 :=
  (hr.tab_inside hk).number_lt

theorem leaf_inside (hr : Repr L s a) {v : ℕ} {lf : Leaf} (h : a.leaf v = some lf) :
    lf.frame.Inside L :=
  hr.inside_of_holds (hr.wf.leaf_held h)

/-! ### Creating a table -/

theorem number_ne (hr : Repr L s a) {h q k : ℕ} (hk : a.tab h q = some k) {fr : Frame}
    (hin : fr.Inside L) (hne : fr ≠ .epm k) : L.epmFrame + k ≠ fr.number L := by
  intro he
  exact hne (Frame.number_inj hin (hr.tab_inside hk) he.symm)

theorem epmFree_ppn (hr : Repr L s a) (hfit : a.epmUsed < L.epmPages) :
    ppn s.epmFreeList = BitVec.ofNat 64 (L.epmFrame + a.epmUsed) := by
  have := L.epm_le
  rw [hr.epmFree, ppn_frameAddr (by omega) (by omega)]

theorem createTable (hr : Repr L s a) {h q k : ℕ} (hh : h < 2) (hq : q < 512 ^ (2 - h))
    (hnone : a.tab h q = none) (hk : a.tab (h + 1) (q / 512) = some k)
    (hfit : a.epmUsed < L.epmPages) :
    Repr L (s.createTable (frameAddr (L.epmFrame + k) (8 * (q % 512)))) (a.addTable h q) where
  wf := addTable_wf hr.wf hh hq hnone ⟨k, hk⟩
  fits := ⟨hfit, hr.fits.2⟩
  root := hr.root
  epmFree := by
    show s.epmFreeList + pageSize = _
    rw [hr.epmFree, frameAddr_add_pageSize]
    rfl
  utmFree := hr.utmFree
  entries := by
    intro h' q' k' i hk' hi
    have hkn := hr.tab_number_lt hk
    have hmod : q % 512 < 512 := Nat.mod_lt _ (by decide)
    -- one entry is written, in the parent `k`; it is compared with every entry of every table
    show readLE64 (writeLE64 s.mem _ (ptdCreate (ppn s.epmFreeList))) _ = _
    rw [hr.epmFree_ppn hfit]
    rcases addTable_tab_cases hk' with ⟨rfl, rfl, rfl⟩ | hold
    · -- the new table is a page of zeros, and nothing hangs below it yet
      have hlt := hr.wf.tab_lt hk
      have hin : (Frame.epm a.epmUsed).Inside L := hfit
      have hun : L.epmFrame + a.epmUsed < 2 ^ 52 := hin.number_lt
      have hzero : ∀ o, o < 4096 → s.mem (frameAddr (L.epmFrame + a.epmUsed) o) = 0 :=
        fun o ho => hr.fresh hin (lt_irrefl _) ho
      rw [readLE64_writeLE64_frame _ _ hkn hun hmod hi, if_neg (by omega),
        readLE64_frame_zero hi hzero, entry_addTable_below hr.wf hh hnone hi]
    · rw [readLE64_writeLE64_frame _ _ hkn (hr.tab_number_lt hold) hmod hi, entry_addTable]
      by_cases hc : h' = h + 1 ∧ 512 * q' + i = q
      · -- the entry just written
        obtain ⟨rfl, rfl⟩ := hc
        rw [show (512 * q' + i) / 512 = q' by omega] at hk
        rw [hk] at hold
        cases hold
        rw [if_pos (by omega), if_pos ⟨rfl, rfl⟩]
      · -- another entry: no two tables share a page
        rw [if_neg hc, if_neg, hr.entries hold hi]
        rintro ⟨hkk, rfl⟩
        obtain ⟨rfl, rfl⟩ := hr.wf.tab_inj hk (show a.tab h' q' = some k by rw [hold]; congr 1; omega)
        exact hc ⟨rfl, by omega⟩
  bytes := by
    intro v lf o hlf ho
    have hin := hr.leaf_inside hlf
    have hne := hr.number_ne hk hin (hr.wf.leaf_ne_tab hlf hk)
    show writeBytes s.mem _ 8 _ _ = _
    rw [frameAddr_byte_of_ne _ _ (hr.tab_number_lt hk) hin.number_lt (by omega) ho hne]
    exact hr.bytes hlf ho
  fresh := by
    intro fr o hin hnot ho
    -- a frame that is not held now was not held before, so that the parent is another one
    have hnot' : ¬ a.Holds fr := fun hh' => hnot (addTable_holds hh')
    have hne : fr ≠ .epm k := by
      rintro rfl
      exact hnot' (hr.wf.tab_lt hk)
    show writeBytes s.mem _ 8 _ _ = _
    rw [frameAddr_byte_of_ne _ _ (hr.tab_number_lt hk) hin.number_lt (by omega) ho
      (hr.number_ne hk hin hne)]
    exact hr.fresh hin hnot' ho
  epmLog := by
    show s.epmPages ++ [s.epmFreeList] = _
    rw [hr.epmLog, hr.epmFree]
    exact (range_succ_map _ _).symm
  utmLog := hr.utmLog

/-! ### Mapping a page -/

theorem freeList_eq (hr : Repr L s a) {l : FreeList} (hin : (a.next l).Inside L) :
    s.freeList l = frameAddr ((a.next l).number L) 0 := by
  cases l with
  | epm => exact hr.epmFree
  | utm =>
    have hpos : 0 < L.utmPages := lt_of_le_of_lt (Nat.zero_le _) hin
    exact hr.utmFree.trans (Layout.utmPage_eq hpos _)

theorem next_inside {l : FreeList} {v : ℕ} {flags : BitVec 64}
    (hfit : (a.addLeaf v l flags).Fits L) : (a.next l).Inside L := by
  obtain ⟨h1, h2⟩ := hfit
  cases l <;> simp only [addLeaf, next, Frame.Inside] at h1 h2 ⊢ <;> omega

theorem next_ne_epm (hr : Repr L s a) {h q k : ℕ} (hk : a.tab h q = some k) (l : FreeList) :
    a.next l ≠ .epm k := by
  have := hr.wf.tab_lt hk
  cases l with
  | epm =>
    intro he
    injection he
    omega
  | utm => rintro ⟨⟩

theorem mapPage (hr : Repr L s a) {v k : ℕ} (hv : v < 134217728)
    (hk : a.tab 0 (v / 512) = some k) (hnone : a.leaf v = none) (l : FreeList)
    {flags : BitVec 64} (hf : flags.toNat < 1024) (hfit : (a.addLeaf v l flags).Fits L) :
    Repr L (s.mapPage l (frameAddr (L.epmFrame + k) (8 * (v % 512))) flags)
      (a.addLeaf v l flags) where
  wf := addLeaf_wf hr.wf hv hk hnone l hf
  fits := hfit
  root := by rw [Keystone.mapPage_rootPageTable, hr.root]
  epmFree := by
    rw [Keystone.mapPage_epmFreeList, hr.epmFree]
    cases l with
    | epm => exact frameAddr_add_pageSize _
    | utm => rfl
  utmFree := by
    rw [Keystone.mapPage_utmFreeList, hr.utmFree]
    cases l with
    | epm => rfl
    | utm => exact L.utmPage_add_pageSize _
  entries := by
    intro h q k' i hk' hi
    replace hk' : a.tab h q = some k' := hk'
    have hmod : v % 512 < 512 := Nat.mod_lt _ (by decide)
    have hnext : s.freeList l >>> pageBits = BitVec.ofNat 64 ((a.next l).number L) := by
      rw [hr.freeList_eq (next_inside hfit)]
      exact ppn_frameAddr (next_inside hfit).number_lt (by decide)
    rw [Keystone.mapPage_mem]
    rw [readLE64_writeLE64_frame _ _ (hr.tab_number_lt hk) (hr.tab_number_lt hk') hmod hi, hnext]
    by_cases hc : h = 0 ∧ 512 * q + i = v
    · -- the entry just written
      obtain ⟨rfl, rfl⟩ := hc
      rw [show (512 * q + i) / 512 = q by omega, hk'] at hk
      cases hk
      rw [if_pos (by omega), entry_leaf_some (addLeaf_leaf_self l flags)]
      rfl
    · rw [if_neg, hr.entries hk' hi]
      · cases h with
        | zero =>
          rw [entry, entry, addLeaf_leaf_of_ne]
          omega
        | succ h => rfl
      · rintro ⟨hkk, rfl⟩
        obtain ⟨rfl, rfl⟩ := hr.wf.tab_inj hk (show a.tab h q = some k by rw [hk']; congr 1; omega)
        exact hc ⟨rfl, by omega⟩
  bytes := by
    intro v' lf o hlf ho
    show writeBytes s.mem _ 8 _ _ = _
    rcases addLeaf_leaf_cases hlf with ⟨_, rfl⟩ | ⟨_, hlf⟩
    · -- a frame that is popped for the first time holds zeros
      have hin : (a.next l).Inside L := next_inside hfit
      rw [frameAddr_byte_of_ne _ _ (hr.tab_number_lt hk) hin.number_lt (by omega) ho
        (hr.number_ne hk hin (hr.next_ne_epm hk l))]
      exact hr.fresh hin (not_holds_next l) ho
    · -- the entry lies in a table, and no page has the frame of a table
      have hin := hr.leaf_inside hlf
      rw [frameAddr_byte_of_ne _ _ (hr.tab_number_lt hk) hin.number_lt (by omega) ho
        (hr.number_ne hk hin (hr.wf.leaf_ne_tab hlf hk))]
      exact hr.bytes hlf ho
  fresh := by
    intro fr o hin hnot ho
    have hnot' : ¬ a.Holds fr := fun h => hnot (addLeaf_holds h)
    have hne : fr ≠ .epm k := by
      rintro rfl
      exact hnot' (hr.wf.tab_lt hk)
    show writeBytes s.mem _ 8 _ _ = _
    rw [frameAddr_byte_of_ne _ _ (hr.tab_number_lt hk) hin.number_lt (by omega) ho
      (hr.number_ne hk hin hne)]
    exact hr.fresh hin hnot' ho
  epmLog := by
    rw [Keystone.mapPage_epmPages, hr.epmLog, hr.epmFree]
    cases l with
    | epm => exact (range_succ_map _ _).symm
    | utm => rfl
  utmLog := by
    rw [Keystone.mapPage_utmPages, hr.utmLog, hr.utmFree]
    cases l with
    | epm => rfl
    | utm => exact (range_succ_map _ _).symm

/-! ### Writing a mapped page -/

theorem writePage (hr : Repr L s a) {v : ℕ} {lf : Leaf} (hlf : a.leaf v = some lf)
    (f : ℕ → Byte) :
    Repr L { s with mem := writeBytes s.mem (frameAddr (lf.frame.number L) 0) 4096 f }
      (a.fill v f) where
  wf := fill_wf hr.wf f
  fits := hr.fits
  root := hr.root
  epmFree := hr.epmFree
  utmFree := hr.utmFree
  entries := by
    intro h q k i hk hi
    -- the page is no table
    have hin := hr.leaf_inside hlf
    have hk' : a.tab h q = some k := hk
    have hne := hr.number_ne hk' hin (hr.wf.leaf_ne_tab hlf hk')
    show readLE64 (writeBytes s.mem _ 4096 f) _ = _
    rw [readLE64_frame_of_ne _ _ hin.number_lt (hr.tab_number_lt hk') (by omega) hi hne.symm,
      hr.entries hk' hi, entry_fill]
  bytes := by
    intro v' lf' o hlf' ho
    have hin := hr.leaf_inside hlf
    show writeBytes s.mem _ 4096 f _ = _
    by_cases hv : v' = v
    · subst hv
      rw [fill_leaf_self hlf] at hlf'
      cases hlf'
      exact frameAddr_byte_page _ _ hin.number_lt ho
    · rw [fill_leaf_of_ne hv] at hlf'
      have hin' := hr.leaf_inside hlf'
      rw [frameAddr_byte_of_ne _ _ hin.number_lt hin'.number_lt (by omega) ho]
      · exact hr.bytes hlf' ho
      · intro he
        exact hv (hr.wf.leaf_inj hlf' hlf (Frame.number_inj hin' hin he.symm))
  fresh := by
    intro fr o hin hnot ho
    have hin' := hr.leaf_inside hlf
    show writeBytes s.mem _ 4096 f _ = _
    rw [frameAddr_byte_of_ne _ _ hin'.number_lt hin.number_lt (by omega) ho]
    · exact hr.fresh hin hnot ho
    · intro he
      rw [← Frame.number_inj hin' hin he] at hnot
      exact hnot (hr.wf.leaf_held hlf)
  epmLog := hr.epmLog
  utmLog := hr.utmLog

/-! ### The first state -/

/-- Two zeroed buffers, with the root table at the start of the EPM. -/
structure Initial (L : Layout) (s : Keystone) : Prop where
  room : 0 < L.epmPages
  root : s.rootPageTable = frameAddr L.epmFrame 0
  epmFree : s.epmFreeList = frameAddr (L.epmFrame + 1) 0
  utmFree : s.utmFreeList = L.utmBase
  zero : ∀ {fr : Frame} {o}, fr.Inside L → o < 4096 → s.mem (frameAddr (fr.number L) o) = 0
  epmLog : s.epmPages = [frameAddr L.epmFrame 0]
  utmLog : s.utmPages = []

/-- An empty root table represents the empty address space. -/
theorem of_initial (hs : Initial L s) : Repr L s empty where
  wf := empty_wf
  fits := ⟨hs.room, Nat.zero_le _⟩
  root := hs.root
  epmFree := hs.epmFree
  utmFree := by
    rw [hs.utmFree, Layout.utmPage]
    exact (BitVec.add_zero _).symm
  entries := by
    intro h q k i hk hi
    -- the root is the only table
    have hk0 : k = 0 := by
      have := empty_wf.tab_lt hk
      simp only [empty] at this
      omega
    subst hk0
    obtain ⟨rfl, rfl⟩ := empty_wf.tab_inj hk empty_wf.root
    have hin : (Frame.epm 0).Inside L := hs.room
    rw [entry_tab_none (by simp [empty])]
    exact readLE64_frame_zero hi fun o ho => hs.zero hin ho
  bytes := by rintro v lf o ⟨⟩
  fresh := fun hin _ ho => hs.zero hin ho
  epmLog := hs.epmLog
  utmLog := hs.utmLog

/-- The UTM buffer appears: the EPM stays as it was, and a zeroed range of
frames becomes the UTM. -/
structure AttachUtm (L' : Layout) (s s' : Keystone) : Prop where
  root : s'.rootPageTable = s.rootPageTable
  epmFree : s'.epmFreeList = s.epmFreeList
  utmFree : s'.utmFreeList = L'.utmBase
  epmLog : s'.epmPages = s.epmPages
  utmLog : s'.utmPages = s.utmPages
  epm : ∀ {k o}, k < L'.epmPages → o < 4096 →
    s'.mem (frameAddr (L'.epmFrame + k) o) = s.mem (frameAddr (L'.epmFrame + k) o)
  zero : ∀ {j o}, j < L'.utmPages → o < 4096 → s'.mem (frameAddr (L'.utmFrame + j) o) = 0

theorem attachUtm {L' : Layout} {s' : Keystone} (hr : Repr L s a) (hused : a.utmUsed = 0)
    (hf : L'.epmFrame = L.epmFrame) (hp : L'.epmPages = L.epmPages) (h : AttachUtm L' s s') :
    Repr L' s' a := by
  -- nothing is mapped to the UTM yet, so that no entry changes its meaning with the layout
  have hleaf : ∀ {v lf}, a.leaf v = some lf → ∃ k, lf.frame = .epm k ∧ k < a.epmUsed := by
    intro v lf hlf
    have hheld := hr.wf.leaf_held hlf
    rcases hfr : lf.frame with k | j
    · rw [hfr] at hheld
      exact ⟨k, rfl, hheld⟩
    · rw [hfr] at hheld
      simp only [Holds] at hheld
      omega
  have hentry : ∀ h x, a.entry L' h x = a.entry L h x := by
    intro h x
    cases h with
    | succ h => rw [entry, entry, hf]
    | zero =>
      rw [entry, entry]
      rcases hl : a.leaf x with _ | lf
      · rfl
      · obtain ⟨k, hk, _⟩ := hleaf hl
        show lf.pte L' = lf.pte L
        rw [Leaf.pte, Leaf.pte, hk, Frame.number, Frame.number, hf]
  have hlt : ∀ {k}, k < a.epmUsed → k < L'.epmPages := fun hk =>
    hp ▸ lt_of_lt_of_le hk hr.fits.1
  refine ⟨hr.wf, ⟨hp ▸ hr.fits.1, hused ▸ Nat.zero_le _⟩, ?_, ?_, ?_, ?_, ?_, ?_, ?_, ?_⟩
  · rw [h.root, hr.root, hf]
  · rw [h.epmFree, hr.epmFree, hf]
  · rw [h.utmFree, hused, Layout.utmPage]
    exact (BitVec.add_zero _).symm
  · intro h' q k i hk hi
    rw [hentry, hf, ← hr.entries hk hi]
    refine readLE64_congr fun d hd => ?_
    rw [frameAddr_add, ← hf]
    exact h.epm (hlt (hr.wf.tab_lt hk)) (by omega)
  · intro v lf o hlf ho
    obtain ⟨k, hk, hkl⟩ := hleaf hlf
    rw [← hr.bytes hlf ho, hk]
    show s'.mem (frameAddr (L'.epmFrame + k) o) = s.mem (frameAddr (L.epmFrame + k) o)
    rw [h.epm (hlt hkl) ho, hf]
  · intro fr o hin hnot ho
    cases fr with
    | utm j => exact h.zero hin ho
    | epm k =>
      show s'.mem (frameAddr (L'.epmFrame + k) o) = 0
      rw [h.epm hin ho, hf]
      exact hr.fresh (f := .epm k) (lt_of_lt_of_eq hin hp) hnot ho
  · rw [h.epmLog, hr.epmLog, hf]
  · rw [h.utmLog, hr.utmLog, hused]
    rfl

end Repr

end KeystoneSdk
