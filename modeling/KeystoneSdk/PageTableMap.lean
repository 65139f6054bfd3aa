/-
The page table refines a finite map from page numbers to physical pages.

The calls that change an address space are `allocPage` and `epm_alloc_vspace`,
in any order.  What they build is compared with the map `pageGiven`, which is
read off the run: the page that was at the head of the free list when the first
`allocPage` for a page number had done its walk.

* `IsTable` — the page tables reachable from the root, in memory;
* `RefinesMap` — what it means that memory refines the map;
* `calls_refine_map` — it does, after every sequence of calls that stays inside
  the buffers.
-/
import KeystoneSdk.LoadRequests

open ByteMemory StopM

namespace KeystoneSdk

/-! ### Calls -/

/-- A call that changes the address space. -/
inductive LoaderCall
  | allocPage (va : Vaddr) (list : FreeList) (src : HostPtr) (mode : BitVec 32)
  | epmAllocVspace (va : Vaddr) (numPages : BitVec 64)

namespace LoaderCall

/-- The call itself. -/
def run : LoaderCall → Loader PUnit
  | allocPage va list src mode => do
    let _ ← KeystoneSdk.allocPage va list src mode
  | epmAllocVspace va numPages => do
    let _ ← KeystoneSdk.epmAllocVspace va numPages

/-- A mode that `allocPage` knows, and a source page that can be read when the
mode copies it. -/
def Valid : LoaderCall → Prop
  | allocPage _ _ src mode =>
    (modeFlags mode).isSome ∧ (modeWrites mode = true → src.readable 4096 = true)
  | epmAllocVspace _ _ => True

def requests : LoaderCall → List Request
  | allocPage va list src mode => [.alloc va list src mode]
  | epmAllocVspace va numPages => vspaceRequests numPages.toNat va

end LoaderCall

/-- Run a sequence of calls. -/
def runCalls (calls : List LoaderCall) : Loader PUnit := forM calls LoaderCall.run

/-- The physical page a sequence of calls gives to page number `v`: the head of
the free list when the first `allocPage` for `v` has done its walk. -/
def pageGiven (v : ℕ) : List LoaderCall → Keystone → Option Paddr
  | [], _ => none
  | .allocPage va list src mode :: calls, s =>
    if vpn va = v then some ((exec (eptWalkCreate va) s).2.freeList list)
    else pageGiven v calls (exec (LoaderCall.run (.allocPage va list src mode)) s).2
  | .epmAllocVspace va numPages :: calls, s =>
    pageGiven v calls (exec (LoaderCall.run (.epmAllocVspace va numPages)) s).2

/-! ### Tables in memory -/

/-- Entry `i` of the page at `t`. -/
def Keystone.entryAt (s : Keystone) (t : Addr) (i : ℕ) : Pte :=
  readLE64 s.mem (t + 8#64 * BitVec.ofNat 64 i)

/-- A page table at height `h` (2 for the root): it is reached from the root
through valid directory entries. -/
inductive IsTable (s : Keystone) : ℕ → Addr → Prop
  | root : IsTable s 2 s.rootPageTable
  | child {h : ℕ} {t : Addr} {i : ℕ} (ht : IsTable s (h + 1) t) (hi : i < 512)
      (hv : s.entryAt t i &&& pteV ≠ 0#64) :
      IsTable s h (ptePpn (s.entryAt t i) <<< riscvPgshift)

/-- Entry `i` of the directory at `t` refers to page `p`. -/
structure DirectoryEntry (s : Keystone) (p : Addr) (e : Addr × ℕ) : Prop where
  directory : ∃ h, IsTable s (h + 1) e.1
  index : e.2 < 512
  valid : s.entryAt e.1 e.2 &&& pteV ≠ 0#64
  target : ptePpn (s.entryAt e.1 e.2) <<< riscvPgshift = p

/-- The state `s` refines the map that `calls` built from `s₀`. -/
structure RefinesMap (calls : List LoaderCall) (s₀ s : Keystone) : Prop where
  /-- `epm_va_to_pa` returns the page given to the page number, or 0. -/
  lookup : ∀ va, exec (epmVaToPa va) s = (.ok ((pageGiven (vpn va) calls s₀).getD 0#64), s)
  /-- Mappings never change afterwards. -/
  stable : ∀ before after, calls = before ++ after → ∀ va p,
    pageGiven (vpn va) before s₀ = some p →
      (exec (epmVaToPa va) (exec (runCalls before) s₀).2).1 = .ok p ∧
        (exec (epmVaToPa va) s).1 = .ok p
  /-- Different page numbers get different pages. -/
  injective : ∀ v v' p, pageGiven v calls s₀ = some p → pageGiven v' calls s₀ = some p → v = v'
  /-- Every page taken from the EPM is a page table or was given to a page
  number. -/
  accounted : ∀ p ∈ s.epmPages, (∃ h, IsTable s h p) ∨ ∃ v, pageGiven v calls s₀ = some p
  /-- Every table but the root has exactly one directory entry. -/
  one_entry : ∀ h p, IsTable s h p → p ≠ s.rootPageTable → ∃! e, DirectoryEntry s p e
  /-- No table is ever handed out as a data page. -/
  not_given : ∀ h p v, IsTable s h p → pageGiven v calls s₀ ≠ some p
  /-- A table holds nothing but entries, for tables below it and for pages
  given to page numbers: no data was written into it. -/
  entries : ∀ h t i, IsTable s h t → i < 512 → s.entryAt t i = 0#64 ∨
    s.entryAt t i &&& pteV ≠ 0#64 ∧
      match h with
      | 0 => ∃ v, pageGiven v calls s₀ = some (ptePpn (s.entryAt t i) <<< riscvPgshift)
      | h + 1 => IsTable s h (ptePpn (s.entryAt t i) <<< riscvPgshift)
  /-- No entry is ever overwritten. -/
  kept : ∀ before after, calls = before ++ after → ∀ h t i,
    IsTable (exec (runCalls before) s₀).2 h t → i < 512 →
      (exec (runCalls before) s₀).2.entryAt t i ≠ 0#64 →
        IsTable s h t ∧ s.entryAt t i = (exec (runCalls before) s₀).2.entryAt t i

/-! ### Calls as requests -/

theorem LoaderCall.run_eq (c : LoaderCall) (hc : c.Valid) : c.run = runAll c.requests := by
  cases c with
  | allocPage va list src mode =>
    show _ = runAll [Request.alloc va list src mode]
    rw [LoaderCall.run, allocPage_valid va list src hc.1, runAll_cons]
    simp only [bind_assoc, pure_bind]
    rfl
  | epmAllocVspace va numPages =>
    rw [LoaderCall.run, epmAllocVspace_eq, bind_assoc]
    exact bind_pure_unit

theorem LoaderCall.requests_valid {c : LoaderCall} (hc : c.Valid) :
    ∀ r ∈ c.requests, r.Valid ∧ r.Returns := by
  cases c with
  | allocPage va list src mode =>
    intro r hr
    rw [LoaderCall.requests, List.mem_singleton] at hr
    subst hr
    exact ⟨hc.1, hc.2⟩
  | epmAllocVspace va numPages =>
    exact fun r hr => ⟨vspaceRequests_valid _ _ r hr, vspaceRequests_returns _ _ r hr⟩

theorem runCalls_eq (calls : List LoaderCall) (hc : ∀ c ∈ calls, c.Valid) :
    runCalls calls = runAll (calls.flatMap LoaderCall.requests) := by
  induction calls with
  | nil => rfl
  | cons c calls ih =>
    rw [runCalls, List.forM_cons, List.flatMap_cons, runAll_append,
      LoaderCall.run_eq c (hc c (List.mem_cons_self ..)),
      ← ih fun c hc' => hc c (List.mem_cons_of_mem _ hc')]
    rfl

theorem requests_valid {calls : List LoaderCall} (hc : ∀ c ∈ calls, c.Valid) :
    ∀ r ∈ calls.flatMap LoaderCall.requests, r.Valid ∧ r.Returns := by
  intro r hr
  obtain ⟨c, hcm, hr⟩ := List.mem_flatMap.mp hr
  exact LoaderCall.requests_valid (hc c hcm) r hr

/-! ### Tables of a represented address space -/

section Tables

variable {L : Layout} {s : Keystone} {a : AddressSpace}

theorem Repr.entryAt_eq (hr : Repr L s a) {h q k i : ℕ} (hk : a.tab h q = some k)
    (hi : i < 512) :
    s.entryAt (frameAddr (L.epmFrame + k) 0) i = a.entry L h (512 * q + i) := by
  rw [Keystone.entryAt, frameAddr_index, hr.entries hk hi]

/-- A valid entry of a directory. -/
theorem Repr.directory_entry (hr : Repr L s a) {h x : ℕ}
    (hv : a.entry L (h + 1) x &&& pteV ≠ 0#64) :
    ∃ k, a.tab h x = some k ∧
      ptePpn (a.entry L (h + 1) x) <<< riscvPgshift = frameAddr (L.epmFrame + k) 0 := by
  rcases hk : a.tab h x with _ | k
  · rw [AddressSpace.entry_tab_none hk, BitVec.zero_and] at hv
    exact absurd rfl hv
  · refine ⟨k, rfl, ?_⟩
    rw [AddressSpace.entry_tab_some hk, ptdCreate,
      ptePpn_shiftLeft (hr.tab_number_lt hk) (by decide)]

/-- **The tables in memory are the tables of the address space.** -/
theorem Repr.isTable_iff (hr : Repr L s a) {h : ℕ} {p : Addr} :
    IsTable s h p ↔ ∃ q k, a.tab h q = some k ∧ p = frameAddr (L.epmFrame + k) 0 := by
  constructor
  · intro ht
    induction ht with
    | root => exact ⟨0, 0, hr.wf.root, hr.root⟩
    | @child h t i ht hi hv ih =>
      obtain ⟨q, k, hk, rfl⟩ := ih
      rw [hr.entryAt_eq hk hi] at hv ⊢
      obtain ⟨k', hk', he⟩ := hr.directory_entry hv
      exact ⟨_, k', hk', he⟩
  · rintro ⟨q, k, hk, rfl⟩
    -- from the root down to height `h`
    have hdown : ∀ d h q k, h + d = 2 → a.tab h q = some k →
        IsTable s h (frameAddr (L.epmFrame + k) 0) := by
      intro d
      induction d with
      | zero =>
        intro h q k hh hk
        obtain rfl : h = 2 := hh
        obtain ⟨_, hq⟩ := hr.wf.tab_range hk
        obtain rfl : q = 0 := by omega
        rw [hr.wf.root] at hk
        cases hk
        rw [show frameAddr (L.epmFrame + 0) 0 = s.rootPageTable from hr.root.symm]
        exact IsTable.root
      | succ d ih =>
        intro h q k hh hk
        obtain ⟨k', hk'⟩ := hr.wf.tab_parent hk (by omega)
        have hmod : q % 512 < 512 := Nat.mod_lt _ (by decide)
        have hent := hr.entryAt_eq hk' hmod
        rw [show 512 * (q / 512) + q % 512 = q by omega, AddressSpace.entry_tab_some hk,
          ptdCreate] at hent
        have hv : s.entryAt (frameAddr (L.epmFrame + k') 0) (q % 512) &&& pteV ≠ 0#64 := by
          rw [hent]
          exact pteCreate_valid _ _
        have hc := IsTable.child (ih (h + 1) (q / 512) k' (by omega) hk') hmod hv
        rw [hent, ptePpn_shiftLeft (hr.tab_number_lt hk) (by decide)] at hc
        exact hc
    obtain ⟨hh, _⟩ := hr.wf.tab_range hk
    exact hdown (2 - h) h q k (by omega) hk

theorem frame_inj (hr : Repr L s a) {fr fr' : Frame} (h : a.Holds fr) (h' : a.Holds fr')
    (he : frameAddr (fr.number L) 0 = frameAddr (fr'.number L) 0) : fr = fr' := by
  have hin := hr.inside_of_holds h
  have hin' := hr.inside_of_holds h'
  exact Frame.number_inj hin hin'
    (frameAddr_inj hin.number_lt hin'.number_lt (by decide) (by decide) he).1

/-- A table that is not the root has exactly one directory entry. -/
theorem Repr.one_entry (hr : Repr L s a) {h : ℕ} {p : Addr} (ht : IsTable s h p)
    (hp : p ≠ s.rootPageTable) : ∃! e, DirectoryEntry s p e := by
  obtain ⟨q, k, hk, rfl⟩ := hr.isTable_iff.mp ht
  have hh : h < 2 := by
    obtain ⟨hh, hq⟩ := hr.wf.tab_range hk
    by_contra hge
    obtain rfl : h = 2 := by omega
    obtain rfl : q = 0 := by omega
    rw [hr.wf.root] at hk
    cases hk
    exact hp hr.root.symm
  -- the entry of its parent points to it, and another one would give its page a second use
  obtain ⟨k', hk'⟩ := hr.wf.tab_parent hk hh
  have hmod : q % 512 < 512 := Nat.mod_lt _ (by decide)
  have hent := hr.entryAt_eq hk' hmod
  rw [show 512 * (q / 512) + q % 512 = q by omega, AddressSpace.entry_tab_some hk,
    ptdCreate] at hent
  refine ⟨(frameAddr (L.epmFrame + k') 0, q % 512), ?_, ?_⟩
  · refine ⟨⟨h, hr.isTable_iff.mpr ⟨_, _, hk', rfl⟩⟩, hmod, ?_, ?_⟩
    · show s.entryAt _ _ &&& pteV ≠ 0#64
      rw [hent]
      exact pteCreate_valid _ _
    · show ptePpn (s.entryAt _ _) <<< riscvPgshift = _
      rw [hent, ptePpn_shiftLeft (hr.tab_number_lt hk) (by decide)]
  · rintro ⟨t, i⟩ ⟨⟨h', ht'⟩, hi, hv, htarget⟩
    obtain ⟨q₁, k₁, hk₁, rfl⟩ := hr.isTable_iff.mp ht'
    simp only at hi hv htarget
    rw [hr.entryAt_eq hk₁ hi] at hv htarget
    obtain ⟨k₂, hk₂, he₂⟩ := hr.directory_entry hv
    rw [he₂] at htarget
    have hfr : Frame.epm k₂ = Frame.epm k :=
      frame_inj hr (hr.wf.tab_lt hk₂) (hr.wf.tab_lt hk) htarget
    cases hfr
    obtain ⟨rfl, rfl⟩ := hr.wf.tab_inj hk₂ hk
    have hq : (512 * q₁ + i) / 512 = q₁ := by omega
    rw [hq, hk₁] at hk'
    cases hk'
    exact Prod.ext rfl (by omega)

end Tables

/-! ### The pages given -/

section Given

variable {L : Layout} {s : Keystone} {a : AddressSpace}

theorem grows_runCalls (calls : List LoaderCall) (hc : ∀ c ∈ calls, c.Valid) :
    Grows LogsGrow (runCalls calls) := by
  rw [runCalls_eq calls hc]
  exact grows_runAll _

/-- What a sequence of calls means. -/
def meaning (calls : List LoaderCall) (a : AddressSpace) : AddressSpace :=
  (exec (forM (calls.flatMap LoaderCall.requests) Request.apply) a).2

/-- What a call means. -/
def LoaderCall.meaning (c : LoaderCall) (a : AddressSpace) : AddressSpace :=
  (exec (forM c.requests Request.apply) a).2

theorem meaning_cons {c : LoaderCall} (hc : c.Valid) (calls : List LoaderCall) (a : AddressSpace) :
    meaning (c :: calls) a = meaning calls (c.meaning a) := by
  have hv := LoaderCall.requests_valid hc
  have hok := AddressSpace.run_returns (fun r h => (hv r h).1) (fun r h => (hv r h).2) a
  have hrun : exec (forM c.requests Request.apply) a = (.ok ⟨⟩, c.meaning a) := Prod.ext hok rfl
  rw [meaning, List.flatMap_cons, forM_append, exec_bind_ok hrun]
  rfl

theorem meaning_append {before after : List LoaderCall} (hc : ∀ c ∈ before, c.Valid)
    (a : AddressSpace) : meaning (before ++ after) a = meaning after (meaning before a) := by
  induction before generalizing a with
  | nil => rfl
  | cons c before ih =>
    have hc₁ := hc c (List.mem_cons_self ..)
    rw [List.cons_append, meaning_cons hc₁, ih fun c h => hc c (List.mem_cons_of_mem _ h),
      meaning_cons hc₁]

/-- A sequence of calls that stays inside the buffers represents its meaning. -/
theorem calls_represent (hr : Repr L s a) {calls : List LoaderCall} (hc : ∀ c ∈ calls, c.Valid)
    (hin : InBuffers L (exec (runCalls calls) s).2) :
    (exec (runCalls calls) s).1 = .ok ⟨⟩ ∧
      Repr L (exec (runCalls calls) s).2 (meaning calls a) := by
  have hv := requests_valid hc
  rw [runCalls_eq calls hc] at hin ⊢
  obtain ⟨h1, h2⟩ := run_represents hr (fun r h => (hv r h).1) hin
  rw [AddressSpace.run_returns (fun r h => (hv r h).1) (fun r h => (hv r h).2)] at h1
  exact ⟨h1, h2⟩

/-- The first call of a sequence that stays inside the buffers, and the rest. -/
theorem call_represents (hr : Repr L s a) {c : LoaderCall} {calls : List LoaderCall}
    (hc : ∀ c' ∈ c :: calls, c'.Valid) (hin : InBuffers L (exec (runCalls (c :: calls)) s).2) :
    Repr L (exec c.run s).2 (c.meaning a) ∧
      exec (runCalls (c :: calls)) s = exec (runCalls calls) (exec c.run s).2 := by
  have hc₁ := hc c (List.mem_cons_self ..)
  have hv := LoaderCall.requests_valid hc₁
  have hcons : runCalls (c :: calls) = c.run >>= fun _ => runCalls calls := List.forM_cons
  have hin₁ : InBuffers L (exec c.run s).2 := by
    refine hin.before ?_
    rw [hcons]
    exact Grows.after LogsGrow.refl _
      (fun _ => grows_runCalls calls fun c h => hc c (List.mem_cons_of_mem _ h)) s
  rw [LoaderCall.run_eq c hc₁] at hin₁
  obtain ⟨h1, h2⟩ := run_represents hr (fun r h => (hv r h).1) hin₁
  rw [AddressSpace.run_returns (fun r h => (hv r h).1) (fun r h => (hv r h).2),
    ← LoaderCall.run_eq c hc₁] at h1
  rw [← LoaderCall.run_eq c hc₁] at h2
  exact ⟨h2, by rw [hcons, exec_bind_ok (Prod.ext h1 rfl)]⟩

/-- The head of the free list after the walk is the frame `allocPage` maps. -/
theorem freeList_after_walk (hr : Repr L s a) {va : Vaddr} {list : FreeList} {src : HostPtr}
    {mode : BitVec 32} (hmode : (modeFlags mode).isSome) (hnone : a.leaf (vpn va) = none)
    (hfit : (exec (Request.alloc va list src mode).apply a).2.Fits L) :
    (exec (eptWalkCreate va) s).2.freeList list =
      frameAddr (((a.touch (vpn va)).next list).number L) 0 := by
  obtain ⟨flags, hf⟩ := Option.isSome_iff_exists.mp hmode
  have hnone' : (a.touch (vpn va)).leaf (vpn va) = none := by
    rw [AddressSpace.touch_leaf, hnone]
  rw [exec_apply_alloc a va list src hf] at hfit
  have hfit' : (a.touch (vpn va)).Fits L :=
    ⟨le_trans AddressSpace.le_place_used.1 hfit.1, le_trans AddressSpace.le_place_used.2 hfit.2⟩
  rw [AddressSpace.place_fits_new hnone'] at hfit
  obtain ⟨k, s', _, he, hr'⟩ := (eptWalkCreate_walks hr va).good hfit'
  rw [he]
  exact hr'.freeList_eq (Repr.next_inside hfit)

/-- **The page given to a page number is the frame it is mapped to.** -/
theorem pageGiven_eq (hr : Repr L s a) {calls : List LoaderCall} (hc : ∀ c ∈ calls, c.Valid)
    (hin : InBuffers L (exec (runCalls calls) s).2) {v : ℕ} (hnone : a.leaf v = none) :
    pageGiven v calls s =
      ((meaning calls a).leaf v).map fun lf => frameAddr (lf.frame.number L) 0 := by
  induction calls generalizing s a with
  | nil =>
    show none = Option.map _ (a.leaf v)
    rw [hnone]
    rfl
  | cons c calls ih =>
    have hc₁ : c.Valid := hc c (List.mem_cons_self ..)
    have hcs : ∀ c ∈ calls, c.Valid := fun c h => hc c (List.mem_cons_of_mem _ h)
    have hv := LoaderCall.requests_valid hc₁
    obtain ⟨hr₁, hrest⟩ := call_represents hr hc hin
    rw [hrest] at hin
    rw [meaning_cons hc₁]
    -- a call that does not allocate `v` leaves it to the others
    have hother : (∀ r ∈ c.requests, r.content v = none) →
        pageGiven v calls (exec c.run s).2 =
          ((meaning calls (c.meaning a)).leaf v).map fun lf => frameAddr (lf.frame.number L) 0 :=
      fun hcon => ih hr₁ hcs hin
        (AddressSpace.run_leaf_none (fun r h => (hv r h).1) hcon hnone)
    cases c with
    | epmAllocVspace va numPages => exact hother (vspaceRequests_content _ _ v)
    | allocPage va list src mode =>
      rw [pageGiven]
      by_cases hvv : vpn va = v
      · -- the first allocation of `v`
        subst hvv
        have hone : (LoaderCall.allocPage va list src mode).meaning a =
            (exec (Request.alloc va list src mode).apply a).2 := by
          rw [LoaderCall.meaning, LoaderCall.requests, List.forM_cons, List.forM_nil]
          exact congrArg (fun m => (exec m a).2) bind_pure_unit
        have hnew := AddressSpace.apply_leaf_new (r := .alloc va list src mode) hc₁.1 hnone
        rw [Request.content, if_pos rfl] at hnew
        obtain ⟨lf, hl, hfr, _⟩ := hnew
        rw [← hone] at hl
        have hmono := AddressSpace.run_leaf_mono (fun r h => (requests_valid hcs r h).1) hl
        have hfit := hr₁.fits
        rw [hone] at hfit
        rw [if_pos rfl, freeList_after_walk hr hc₁.1 hnone hfit, meaning, hmono, Option.map_some,
          hfr]
      · rw [if_neg hvv]
        refine hother fun r h => ?_
        rw [LoaderCall.requests, List.mem_singleton] at h
        subst h
        exact if_neg hvv

/-! ### The refinement -/

theorem meaning_leaf_mono {calls : List LoaderCall} (hc : ∀ c ∈ calls, c.Valid) {v : ℕ}
    {lf : Leaf} (h : a.leaf v = some lf) : (meaning calls a).leaf v = some lf :=
  AddressSpace.run_leaf_mono (fun r h => (requests_valid hc r h).1) h

theorem meaning_tab_mono {calls : List LoaderCall} (hc : ∀ c ∈ calls, c.Valid) {h q k : ℕ}
    (hk : a.tab h q = some k) : (meaning calls a).tab h q = some k :=
  AddressSpace.run_tab_mono (fun r h => (requests_valid hc r h).1) hk

theorem translate_eq (L : Layout) (a : AddressSpace) (v : ℕ) :
    a.translate L v = ((a.leaf v).map fun lf => frameAddr (lf.frame.number L) 0).getD 0#64 := by
  rw [AddressSpace.translate]
  cases a.leaf v <;> rfl

theorem AddressSpace.translate_some {v : ℕ} {lf : Leaf} (h : a.leaf v = some lf) :
    a.translate L v = frameAddr (lf.frame.number L) 0 := by
  rw [AddressSpace.translate, h]

/-- An entry that is set is the same in a later address space. -/
theorem entry_mono {b : AddressSpace} (hleaf : ∀ {v lf}, a.leaf v = some lf → b.leaf v = some lf)
    (htab : ∀ {h q k}, a.tab h q = some k → b.tab h q = some k) {h x : ℕ}
    (hne : a.entry L h x ≠ 0#64) : b.entry L h x = a.entry L h x := by
  cases h with
  | zero =>
    rcases hl : a.leaf x with _ | lf
    · exact absurd (AddressSpace.entry_leaf_none hl) hne
    · rw [AddressSpace.entry_leaf_some hl, AddressSpace.entry_leaf_some (hleaf hl)]
  | succ h =>
    rcases hk : a.tab h x with _ | k
    · exact absurd (AddressSpace.entry_tab_none hk) hne
    · rw [AddressSpace.entry_tab_some hk, AddressSpace.entry_tab_some (htab hk)]

/-- A table of a represented address space holds entries only. -/
theorem Repr.entries_only (hr : Repr L s a) {h i : ℕ} {t : Addr} (ht : IsTable s h t)
    (hi : i < 512) : s.entryAt t i = 0#64 ∨ s.entryAt t i &&& pteV ≠ 0#64 ∧
      match h with
      | 0 => ∃ v lf, a.leaf v = some lf ∧
          frameAddr (lf.frame.number L) 0 = ptePpn (s.entryAt t i) <<< riscvPgshift
      | h + 1 => IsTable s h (ptePpn (s.entryAt t i) <<< riscvPgshift) := by
  obtain ⟨q, k, hk, rfl⟩ := hr.isTable_iff.mp ht
  rw [hr.entryAt_eq hk hi]
  cases h with
  | zero =>
    rcases hl : a.leaf (512 * q + i) with _ | lf
    · exact Or.inl (AddressSpace.entry_leaf_none hl)
    · refine Or.inr ⟨?_, _, lf, hl, ?_⟩
      · rw [AddressSpace.entry_leaf_some hl]
        exact pteCreate_valid _ _
      · rw [AddressSpace.entry_leaf_some hl, Leaf.pte,
          ptePpn_shiftLeft (hr.leaf_inside hl).number_lt (hr.wf.leaf_flags hl)]
  | succ h =>
    by_cases hv : a.entry L (h + 1) (512 * q + i) &&& pteV = 0#64
    · refine Or.inl ?_
      rcases hk' : a.tab h (512 * q + i) with _ | k'
      · exact AddressSpace.entry_tab_none hk'
      · rw [AddressSpace.entry_tab_some hk'] at hv
        exact absurd hv (pteCreate_valid _ _)
    · obtain ⟨k', hk', he⟩ := hr.directory_entry hv
      exact Or.inr ⟨hv, hr.isTable_iff.mpr ⟨_, k', hk', he⟩⟩

/-- Every page taken from the EPM is a table or a mapped page. -/
theorem Repr.page_cases (hr : Repr L s a) {p : Vaddr} (hp : p ∈ s.epmPages) :
    (∃ h, IsTable s h p) ∨
      ∃ v lf, a.leaf v = some lf ∧ frameAddr (lf.frame.number L) 0 = p := by
  rw [hr.epmLog] at hp
  obtain ⟨k, hk, rfl⟩ := List.mem_map.mp hp
  rcases hr.wf.epm_used (List.mem_range.mp hk) with ⟨h, q, htab⟩ | ⟨v, lf, hl, hfr⟩
  · exact Or.inl ⟨h, hr.isTable_iff.mpr ⟨q, k, htab, rfl⟩⟩
  · exact Or.inr ⟨v, lf, hl, by rw [hfr]; rfl⟩

end Given

/-- **The page table refines a finite map**: every sequence of calls that stays
inside its buffers returns, and leaves behind the map it was asked for. -/
theorem calls_refine_map (L : Layout) (s₀ : Keystone) (hs : Repr.Initial L s₀)
    (calls : List LoaderCall) (hc : ∀ c ∈ calls, c.Valid)
    (hin : InBuffers L (exec (runCalls calls) s₀).2) :
    (exec (runCalls calls) s₀).1 = .ok ⟨⟩ ∧ RefinesMap calls s₀ (exec (runCalls calls) s₀).2 := by
  have hr₀ := Repr.of_initial hs
  obtain ⟨hok, hr⟩ := calls_represent hr₀ hc hin
  have hgiven : ∀ v, pageGiven v calls s₀ =
      ((meaning calls .empty).leaf v).map fun lf => frameAddr (lf.frame.number L) 0 :=
    fun v => pageGiven_eq hr₀ hc hin rfl
  have hsome : ∀ {v p}, pageGiven v calls s₀ = some p →
      ∃ lf, (meaning calls .empty).leaf v = some lf ∧ frameAddr (lf.frame.number L) 0 = p := by
    intro v p hp
    rw [hgiven] at hp
    exact Option.map_eq_some_iff.mp hp
  -- a prefix of the calls, with what it means
  have hprefix : ∀ before after, calls = before ++ after →
      (∀ c ∈ before, c.Valid) ∧ (∀ c ∈ after, c.Valid) ∧
        InBuffers L (exec (runCalls before) s₀).2 := by
    rintro before after rfl
    have hb : ∀ c ∈ before, c.Valid := fun c h => hc c (List.mem_append_left _ h)
    have ha : ∀ c ∈ after, c.Valid := fun c h => hc c (List.mem_append_right _ h)
    refine ⟨hb, ha, hin.before ?_⟩
    rw [show runCalls (before ++ after) = runCalls before >>= fun _ => runCalls after from
      forM_append before after]
    exact Grows.after LogsGrow.refl _ (fun _ => grows_runCalls after ha) s₀
  refine ⟨hok, ?_, ?_, ?_, ?_, fun h p => hr.one_entry, ?_, ?_, ?_⟩
  · intro va
    rw [exec_epmVaToPa hr, translate_eq, hgiven]
  · intro before after heq va p hp
    obtain ⟨hb, ha, hinb⟩ := hprefix before after heq
    obtain ⟨_, hrb⟩ := calls_represent hr₀ hb hinb
    rw [pageGiven_eq hr₀ hb hinb rfl] at hp
    obtain ⟨lf, hl, rfl⟩ := Option.map_eq_some_iff.mp hp
    have hl' : (meaning calls .empty).leaf (vpn va) = some lf := by
      rw [heq, meaning_append hb]
      exact meaning_leaf_mono ha hl
    rw [exec_epmVaToPa hrb, exec_epmVaToPa hr, AddressSpace.translate_some hl,
      AddressSpace.translate_some hl']
    exact ⟨rfl, rfl⟩
  · intro v v' p hp hp'
    obtain ⟨lf, hl, rfl⟩ := hsome hp
    obtain ⟨lf', hl', he⟩ := hsome hp'
    exact hr.wf.leaf_inj hl hl'
      (frame_inj hr (hr.wf.leaf_held hl) (hr.wf.leaf_held hl') he.symm)
  · intro p hp
    rcases hr.page_cases hp with ht | ⟨v, lf, hl, rfl⟩
    · exact Or.inl ht
    · exact Or.inr ⟨v, by rw [hgiven, hl]; rfl⟩
  · intro h p v ht hp
    obtain ⟨q, k, hk, rfl⟩ := hr.isTable_iff.mp ht
    obtain ⟨lf, hl, he⟩ := hsome hp
    exact hr.wf.leaf_ne_tab hl hk
      (frame_inj hr (hr.wf.leaf_held hl) (hr.wf.tab_lt hk : AddressSpace.Holds _ (.epm k)) he)
  · intro h t i ht hi
    rcases hr.entries_only ht hi with h0 | ⟨hv, htarget⟩
    · exact Or.inl h0
    · refine Or.inr ⟨hv, ?_⟩
      cases h with
      | zero =>
        obtain ⟨v, lf, hl, he⟩ := htarget
        exact ⟨v, by rw [hgiven, hl, ← he]; rfl⟩
      | succ h => exact htarget
  · intro before after heq h t i ht hi hne
    obtain ⟨hb, ha, hinb⟩ := hprefix before after heq
    obtain ⟨_, hrb⟩ := calls_represent hr₀ hb hinb
    obtain ⟨q, k, hk, rfl⟩ := hrb.isTable_iff.mp ht
    have hmeaning : meaning calls .empty = meaning after (meaning before .empty) := by
      rw [heq, meaning_append hb]
    have hk' : (meaning calls .empty).tab h q = some k := by
      rw [hmeaning]
      exact meaning_tab_mono ha hk
    rw [hrb.entryAt_eq hk hi] at hne ⊢
    rw [hr.entryAt_eq hk' hi, hmeaning]
    refine ⟨hr.isTable_iff.mpr ⟨q, k, hk', rfl⟩, ?_⟩
    exact entry_mono (meaning_leaf_mono ha) (meaning_tab_mono ha) hne

/-- A state the loader can be in: some calls have been made from two zeroed
buffers, and stayed inside them. -/
def Reachable (L : Layout) (s : Keystone) : Prop :=
  ∃ s₀ calls, Repr.Initial L s₀ ∧ (∀ c ∈ calls, LoaderCall.Valid c) ∧
    s = (exec (runCalls calls) s₀).2 ∧ InBuffers L s

/-- A reachable state represents an address space. -/
theorem Reachable.repr {L : Layout} {s : Keystone} (h : Reachable L s) : ∃ a, Repr L s a := by
  obtain ⟨s₀, calls, hs, hc, rfl, hin⟩ := h
  exact ⟨_, (calls_represent (Repr.of_initial hs) hc hin).2⟩

/-! ### A small run -/

/-- Eight pages of EPM at 0x10000 and two of UTM at 0x20000. -/
def smallLayout : Layout where
  epmFrame := 16
  epmPages := 8
  utmFrame := 32
  utmPages := 2
  utmBase := 0x20000#64
  utmBase_eq := fun _ => rfl
  epm_le := by decide
  utm_le := by decide
  epmPages_lt := by decide
  utmPages_lt := by decide
  disjoint := by
    intro i j hi hj
    omega

/-- The first state of `smallLayout`. -/
def smallState : Keystone where
  mem := fun _ => 0
  rootPageTable := 0x10000#64
  startAddr := 0x10000#64
  epmFreeList := 0x11000#64
  utmFreeList := 0x20000#64
  untrustedStart := 0#64
  untrustedSize := 0#64
  hash := none
  epmPages := [0x10000#64]
  utmPages := []

theorem smallState_initial : Repr.Initial smallLayout smallState where
  room := by decide
  root := rfl
  epmFree := rfl
  utmFree := rfl
  zero := fun _ _ => rfl
  epmLog := rfl
  utmLog := rfl

theorem smallState_reachable : Reachable smallLayout smallState :=
  ⟨smallState, [], smallState_initial, fun _ hc => absurd hc List.not_mem_nil, rfl,
    (Repr.of_initial smallState_initial).inBuffers⟩

/-- Two pages, the second at a page number that needs new tables, and the first
once more through an address that differs above bit 38. -/
def smallCalls : List LoaderCall :=
  [.allocPage 0x1000#64 .epm nullpage userNoexec, .epmAllocVspace 0x40000000#64 1#64,
    .allocPage 0x40201000#64 .utm nullpage rtNoexec,
    .allocPage 0x8000001000#64 .epm nullpage rtNoexec]

theorem smallCalls_valid : ∀ c ∈ smallCalls, c.Valid := by
  intro c hc
  simp only [smallCalls, List.mem_cons, List.not_mem_nil, or_false] at hc
  rcases hc with rfl | rfl | rfl | rfl
  · exact ⟨by decide, by decide⟩
  · trivial
  · exact ⟨by decide, by decide⟩
  · exact ⟨by decide, by decide⟩

theorem smallCalls_pages :
    (exec (runCalls smallCalls) smallState).2.epmPages =
        [0x10000#64, 0x11000#64, 0x12000#64, 0x13000#64, 0x14000#64, 0x15000#64, 0x16000#64] ∧
      (exec (runCalls smallCalls) smallState).2.utmPages = [0x20000#64] := by
  decide +kernel

theorem smallCalls_inBuffers : InBuffers smallLayout (exec (runCalls smallCalls) smallState).2 :=
  inBuffers_of_pages smallCalls_pages.1 smallCalls_pages.2 (by decide) (by decide)

theorem calls_refine_map_small :
    (exec (runCalls smallCalls) smallState).1 = .ok ⟨⟩ ∧
      RefinesMap smallCalls smallState (exec (runCalls smallCalls) smallState).2 :=
  calls_refine_map smallLayout smallState smallState_initial smallCalls smallCalls_valid
    smallCalls_inBuffers

end KeystoneSdk
