/-
Pre-allocating a range of addresses makes its pages linear.

`epm_alloc_vspace` creates the page tables of a range before any page of it is
loaded.  What is then taken from the EPM free list are pages of the range and
nothing else, so they follow each other in memory.

* `PageAlloc`, `stateAfter`, `newPages` — allocations in the EPM, and how many of
  them map a new page;
* `Tabled` — the tables above a page exist;
* `alloc_step` — what an allocation does below existing tables;
* **`prealloc_linear`** — after `epm_alloc_vspace` no table is created any more, and
  new pages are consecutive.
-/
import KeystoneSdk.PageTableMap

open ByteMemory StopM

namespace KeystoneSdk

/-- A call of `allocPage` that draws from the EPM free list. -/
structure PageAlloc where
  va : Vaddr
  src : HostPtr
  mode : BitVec 32

namespace PageAlloc

def call (p : PageAlloc) : LoaderCall := .allocPage p.va .epm p.src p.mode

/-- The address lies in `[va, va + numPages * PAGE_SIZE)`; a range that runs over
the top of the address space goes on at 0. -/
def InRange (p : PageAlloc) (va : Vaddr) (numPages : BitVec 64) : Prop :=
  (p.va - va).toNat < numPages.toNat * 4096

end PageAlloc

/-- The state after some allocations. -/
def stateAfter (allocs : List PageAlloc) (s : Keystone) : Keystone :=
  (exec (runCalls (allocs.map PageAlloc.call)) s).2

/-- How many of the allocations map a new page. -/
def newPages : List PageAlloc → Keystone → ℕ
  | [], _ => 0
  | p :: rest, s =>
    (if (s.pteAt p.va).isNone then 1 else 0) + newPages rest (exec p.call.run s).2

/-- The allocations create no page table, and the pages they map follow each other
from the head of the free list of `s` on. -/
structure LinearFrom (s : Keystone) (allocs : List PageAlloc) : Prop where
  tables : ∀ before after, allocs = before ++ after → ∀ h p,
    IsTable (stateAfter before s) h p ↔ IsTable s h p
  /-- A call that maps a new page gets the page behind those mapped before it. -/
  page : ∀ before p after, allocs = before ++ p :: after →
    (stateAfter before s).pteAt p.va = none →
      ∃ pa, pa.toNat = s.epmFreeList.toNat + newPages before s * 4096 ∧
        (exec (epmVaToPa p.va) (stateAfter (before ++ [p]) s)).1 = .ok pa ∧
        (exec (epmVaToPa p.va) (stateAfter allocs s)).1 = .ok pa
  /-- Different new pages end up in memory in the order of the calls, without a gap. -/
  contiguous : allocs.Pairwise (fun p q => vpn p.va ≠ vpn q.va) →
    (∀ p ∈ allocs, s.pteAt p.va = none) → ∀ before p after, allocs = before ++ p :: after →
      ∃ pa, pa.toNat = s.epmFreeList.toNat + before.length * 4096 ∧
        (exec (epmVaToPa p.va) (stateAfter allocs s)).1 = .ok pa

/-- The tables above page number `v` exist. -/
def Tabled (a : AddressSpace) (v : ℕ) : Prop := ∃ k, a.tab 0 (v / 512) = some k

section

variable {L : Layout} {s : Keystone} {a : AddressSpace}

/-! ### One allocation -/

/-- What an allocation does to an address space that has the tables above it. -/
structure AllocStep (a a' : AddressSpace) (v : ℕ) : Prop where
  tab : a'.tab = a.tab
  used : a'.epmUsed = a.epmUsed + if (a.leaf v).isNone then 1 else 0
  leaf : a.leaf v = none → ∃ lf, a'.leaf v = some lf ∧ lf.frame = .epm a.epmUsed
  other : ∀ v', v' ≠ v → a'.leaf v' = a.leaf v'

theorem alloc_step (hw : a.WF) {p : PageAlloc} (hp : p.call.Valid) (ht : Tabled a (vpn p.va)) :
    AllocStep a (p.call.meaning a) (vpn p.va) := by
  obtain ⟨k, hk⟩ := ht
  obtain ⟨flags, hf⟩ := Option.isSome_iff_exists.1 hp.1
  have hmeaning : p.call.meaning a = (exec (Request.alloc p.va .epm p.src p.mode).apply a).2 := by
    rw [LoaderCall.meaning, PageAlloc.call, LoaderCall.requests, List.forM_cons, List.forM_nil]
    exact congrArg (fun m => (exec m a).2) bind_pure_unit
  have htouch := AddressSpace.touch_eq_self hw hk
  have hplace := exec_apply_alloc a p.va .epm p.src hf
  rw [htouch] at hplace
  refine ⟨?_, ?_, fun hnone => ?_, fun v' hne => ?_⟩
  · rw [hmeaning, hplace]
    funext h q
    exact AddressSpace.place_tab h q .epm p.src p.mode flags
  · rw [hmeaning, hplace, AddressSpace.place_used.1]
    cases hl : a.leaf (vpn p.va) with
    | none => rfl
    | some lf => rfl
  · have hnew := AddressSpace.apply_leaf_new (r := .alloc p.va .epm p.src p.mode) hp.1 hnone
    rw [Request.content, if_pos rfl] at hnew
    obtain ⟨lf, hl, hfr, -⟩ := hnew
    rw [htouch] at hfr
    exact ⟨lf, by rw [hmeaning]; exact hl, hfr⟩
  · rw [hmeaning, hplace]
    exact AddressSpace.place_leaf_of_ne hne .epm p.src p.mode flags

/-- The tables in memory are those of the address space. -/
theorem isTable_congr {s' : Keystone} {a' : AddressSpace} (hr : Repr L s a) (hr' : Repr L s' a')
    (htab : a'.tab = a.tab) (h : ℕ) (p : Addr) : IsTable s' h p ↔ IsTable s h p := by
  rw [hr.isTable_iff, hr'.isTable_iff, htab]

/-! ### Runs of allocations -/

theorem stateAfter_cons {p : PageAlloc} {allocs : List PageAlloc}
    (hr : Repr L s a) (hv : ∀ q ∈ p :: allocs, q.call.Valid)
    (hin : InBuffers L (stateAfter (p :: allocs) s)) :
    Repr L (exec p.call.run s).2 (p.call.meaning a) ∧
      stateAfter (p :: allocs) s = stateAfter allocs (exec p.call.run s).2 := by
  have hc : ∀ c ∈ p.call :: allocs.map PageAlloc.call, c.Valid := by
    intro c hc
    rcases List.mem_cons.1 hc with rfl | hc
    · exact hv p List.mem_cons_self
    · obtain ⟨q, hq, rfl⟩ := List.mem_map.1 hc
      exact hv q (List.mem_cons_of_mem _ hq)
  obtain ⟨hr', hrest⟩ := call_represents hr hc hin
  exact ⟨hr', congrArg Prod.snd hrest⟩

/-- What the allocations map stays mapped. -/
theorem epmVaToPa_stateAfter {allocs : List PageAlloc} (hr : Repr L s a)
    (hv : ∀ q ∈ allocs, q.call.Valid) (hin : InBuffers L (stateAfter allocs s)) {va : Vaddr}
    {lf : Leaf} (hl : a.leaf (vpn va) = some lf) :
    (exec (epmVaToPa va) (stateAfter allocs s)).1 = .ok (frameAddr (lf.frame.number L) 0) := by
  have hc : ∀ c ∈ allocs.map PageAlloc.call, c.Valid := by
    intro c hc
    obtain ⟨q, hq, rfl⟩ := List.mem_map.1 hc
    exact hv q hq
  obtain ⟨-, hr'⟩ := calls_represent hr hc hin
  have hl' := meaning_leaf_mono hc hl
  show (exec (epmVaToPa va) (exec _ s).2).1 = _
  rw [exec_epmVaToPa hr', AddressSpace.translate_some hl']

/-- The state after a first part of the allocations stays inside the buffers too. -/
theorem inBuffers_before (before : List PageAlloc) {after : List PageAlloc}
    (hv : ∀ q ∈ before ++ after, q.call.Valid) (hin : InBuffers L (stateAfter (before ++ after) s)) :
    InBuffers L (stateAfter before s) := by
  have hc : ∀ (l : List PageAlloc), (∀ q ∈ l, q.call.Valid) →
      ∀ c ∈ l.map PageAlloc.call, c.Valid := by
    intro l hl c hc
    obtain ⟨q, hq, rfl⟩ := List.mem_map.1 hc
    exact hl q hq
  refine hin.before ?_
  have happend : runCalls ((before ++ after).map PageAlloc.call) =
      runCalls (before.map PageAlloc.call) >>= fun _ => runCalls (after.map PageAlloc.call) := by
    rw [List.map_append]
    exact forM_append _ _
  unfold stateAfter
  rw [happend]
  exact Grows.after LogsGrow.refl _ (fun _ => grows_runCalls _
    (hc after fun q hq => hv q (List.mem_append_right _ hq))) s

/-- A first part of a run that starts with `q`. -/
theorem stateAfter_first {q : PageAlloc} (before after : List PageAlloc) (hr : Repr L s a)
    (hv : ∀ r ∈ q :: (before ++ after), r.call.Valid)
    (hin : InBuffers L (stateAfter (q :: (before ++ after)) s)) :
    stateAfter (q :: before) s = stateAfter before (exec q.call.run s).2 := by
  have hvb : ∀ r ∈ q :: before, r.call.Valid := fun r h => hv r (List.mem_append_left after h)
  exact (stateAfter_cons hr hvb (inBuffers_before (q :: before) hv hin)).2

/-- What is left of a run below existing tables once its first call is done. -/
structure AfterFirst (L : Layout) (s : Keystone) (a : AddressSpace) (q : PageAlloc)
    (rest : List PageAlloc) : Prop where
  step : AllocStep a (q.call.meaning a) (vpn q.va)
  repr : Repr L (exec q.call.run s).2 (q.call.meaning a)
  run : stateAfter (q :: rest) s = stateAfter rest (exec q.call.run s).2
  valid : ∀ r ∈ rest, r.call.Valid
  tabled : ∀ r ∈ rest, Tabled (q.call.meaning a) (vpn r.va)
  inside : InBuffers L (stateAfter rest (exec q.call.run s).2)

theorem afterFirst {q : PageAlloc} (rest : List PageAlloc) (hr : Repr L s a)
    (hv : ∀ r ∈ q :: rest, r.call.Valid) (ht : ∀ r ∈ q :: rest, Tabled a (vpn r.va))
    (hin : InBuffers L (stateAfter (q :: rest) s)) : AfterFirst L s a q rest := by
  have hstep := alloc_step hr.wf (hv q List.mem_cons_self) (ht q List.mem_cons_self)
  obtain ⟨hr', hrest⟩ := stateAfter_cons hr hv hin
  refine ⟨hstep, hr', hrest, fun r h => hv r (List.mem_cons_of_mem _ h), fun r h => ?_, ?_⟩
  · unfold Tabled
    rw [hstep.tab]
    exact ht r (List.mem_cons_of_mem _ h)
  · rw [← hrest]
    exact hin

/-- The `k`-th new page, below existing tables: the induction is on the calls before
it, with the state and its address space generalized. -/
theorem page_of_tabled {before after : List PageAlloc} {p : PageAlloc} (hr : Repr L s a)
    (hv : ∀ q ∈ before ++ p :: after, q.call.Valid)
    (ht : ∀ q ∈ before ++ p :: after, Tabled a (vpn q.va))
    (hin : InBuffers L (stateAfter (before ++ p :: after) s))
    (hnone : (stateAfter before s).pteAt p.va = none) :
    a.epmUsed + newPages before s < L.epmPages ∧
      (exec (epmVaToPa p.va) (stateAfter (before ++ [p]) s)).1 =
        .ok (frameAddr (L.epmFrame + (a.epmUsed + newPages before s)) 0) ∧
      (exec (epmVaToPa p.va) (stateAfter (before ++ p :: after) s)).1 =
        .ok (frameAddr (L.epmFrame + (a.epmUsed + newPages before s)) 0) := by
  induction before generalizing s a with
  | nil =>
    have hp := hv p List.mem_cons_self
    have hstep := alloc_step hr.wf hp (ht p List.mem_cons_self)
    obtain ⟨hr', hrest⟩ := stateAfter_cons hr hv hin
    have hone := stateAfter_first [] after hr hv hin
    have hleaf : a.leaf (vpn p.va) = none := by
      have hpte := pteAt_eq hr p.va
      rw [show s.pteAt p.va = none from hnone] at hpte
      exact Option.map_eq_none_iff.1 hpte.symm
    obtain ⟨lf, hl, hframe⟩ := hstep.leaf hleaf
    have hinside := hr'.leaf_inside hl
    have hva' : ∀ q ∈ after, q.call.Valid := fun q h => hv q (List.mem_cons_of_mem _ h)
    have hin' : InBuffers L (stateAfter after (exec p.call.run s).2) := by
      rw [← hrest]
      exact hin
    rw [hframe] at hinside
    refine ⟨hinside, ?_, ?_⟩
    · show (exec (epmVaToPa p.va) (stateAfter [p] s)).1 = _
      rw [hone, @epmVaToPa_stateAfter _ _ _ [] hr' (fun q h => nomatch h)
        (inBuffers_before [] hva' hin') _ _ hl, hframe]
      rfl
    · rw [List.nil_append, hrest, epmVaToPa_stateAfter hr' hva' hin' hl, hframe]
      rfl
  | cons q before ih =>
    have hq := afterFirst (before ++ p :: after) hr hv ht hin
    rw [stateAfter_first before _ hr hv hin] at hnone
    have hnew : (s.pteAt q.va).isNone = (a.leaf (vpn q.va)).isNone := by
      rw [pteAt_eq hr, Option.isNone_map]
    -- what `q` takes from the free list is counted on both sides
    have hcount : (q.call.meaning a).epmUsed + newPages before (exec q.call.run s).2 =
        a.epmUsed + newPages (q :: before) s := by
      rw [newPages, hnew, hq.step.used]
      omega
    have hmid : stateAfter (q :: before ++ [p]) s =
        stateAfter (before ++ [p]) (exec q.call.run s).2 := by
      refine stateAfter_first (before ++ [p]) after hr ?_ ?_
      · rw [List.append_assoc]
        exact hv
      · rw [List.append_assoc]
        exact hin
    rw [hmid, ← hcount, List.cons_append, hq.run]
    exact ih hq.repr hq.valid hq.tabled hq.inside hnone

/-- No table is created below existing tables. -/
theorem tables_of_tabled {before after : List PageAlloc} (hr : Repr L s a)
    (hv : ∀ q ∈ before ++ after, q.call.Valid)
    (ht : ∀ q ∈ before ++ after, Tabled a (vpn q.va))
    (hin : InBuffers L (stateAfter (before ++ after) s)) (h : ℕ) (p : Addr) :
    IsTable (stateAfter before s) h p ↔ IsTable s h p := by
  induction before generalizing s a with
  | nil => exact Iff.rfl
  | cons q before ih =>
    have hq := afterFirst (before ++ after) hr hv ht hin
    rw [stateAfter_first before _ hr hv hin, ← isTable_congr hr hq.repr hq.step.tab]
    exact ih hq.repr hq.valid hq.tabled hq.inside

/-- Calls for different pages that are not mapped yet: each maps its page, which is
still unmapped when its turn comes. -/
theorem newPages_of_distinct {before after : List PageAlloc} {p : PageAlloc} (hr : Repr L s a)
    (hv : ∀ q ∈ before ++ p :: after, q.call.Valid)
    (ht : ∀ q ∈ before ++ p :: after, Tabled a (vpn q.va))
    (hin : InBuffers L (stateAfter (before ++ p :: after) s))
    (hne : (before ++ p :: after).Pairwise fun p q => vpn p.va ≠ vpn q.va)
    (hnone : ∀ q ∈ before ++ p :: after, s.pteAt q.va = none) :
    newPages before s = before.length ∧ (stateAfter before s).pteAt p.va = none := by
  induction before generalizing s a with
  | nil => exact ⟨rfl, hnone p List.mem_cons_self⟩
  | cons q before ih =>
    have hq := afterFirst (before ++ p :: after) hr hv ht hin
    obtain ⟨hfar, hne'⟩ := List.pairwise_cons.1 hne
    have hnone' : ∀ r ∈ before ++ p :: after, (exec q.call.run s).2.pteAt r.va = none := by
      intro r hmem
      rw [pteAt_eq hq.repr, hq.step.other _ (hfar r hmem).symm, ← pteAt_eq hr]
      exact hnone r (List.mem_cons_of_mem _ hmem)
    obtain ⟨hcount, hp⟩ := ih hq.repr hq.valid hq.tabled hq.inside hne' hnone'
    rw [stateAfter_first before _ hr hv hin]
    refine ⟨?_, hp⟩
    rw [newPages, hcount, hnone q List.mem_cons_self, List.length_cons]
    exact Nat.add_comm _ _

/-- Below existing tables every run of allocations is linear. -/
theorem linearFrom_of_tabled {allocs : List PageAlloc} (hr : Repr L s a)
    (hv : ∀ q ∈ allocs, q.call.Valid) (ht : ∀ q ∈ allocs, Tabled a (vpn q.va))
    (hin : InBuffers L (stateAfter allocs s)) : LinearFrom s allocs := by
  have hframe : ∀ k, a.epmUsed + k < L.epmPages →
      (frameAddr (L.epmFrame + (a.epmUsed + k)) 0).toNat = s.epmFreeList.toNat + k * 4096 := by
    intro k hk
    have hle := L.epm_le
    rw [hr.epmFree, frameAddr_toNat (by omega) (by decide), frameAddr_toNat (by omega) (by decide)]
    omega
  refine ⟨fun before after hsplit h p => ?_, fun before p after hsplit hnone => ?_,
    fun hne hnone before p after hsplit => ?_⟩
  · subst hsplit
    exact tables_of_tabled hr hv ht hin h p
  · subst hsplit
    obtain ⟨hlt, hnow, hlater⟩ := page_of_tabled hr hv ht hin hnone
    exact ⟨_, hframe _ hlt, hnow, hlater⟩
  · subst hsplit
    obtain ⟨hcount, hp⟩ := newPages_of_distinct hr hv ht hin hne hnone
    obtain ⟨hlt, -, hlater⟩ := page_of_tabled hr hv ht hin hp
    rw [hcount] at hlt hlater
    exact ⟨_, hframe _ hlt, hlater⟩

/-! ### The tables of a range -/

/-- The walks of `epm_alloc_vspace` leave the tables of every page of the range. -/
theorem tabled_vspace (n : ℕ) (va : Vaddr) (a : AddressSpace) {i : ℕ} (hi : i < n) :
    Tabled (exec (forM (vspaceRequests n va) Request.apply) a).2
      (vpn (va + BitVec.ofNat 64 (i * 4096))) := by
  induction n generalizing va a i with
  | zero => omega
  | succ n ih =>
    have hrun : (exec (forM (vspaceRequests (n + 1) va) Request.apply) a).2 =
        (exec (forM (vspaceRequests n (va + pageSize)) Request.apply) (a.touch (vpn va))).2 := by
      rw [vspaceRequests, List.forM_cons]
      rfl
    rw [hrun]
    cases i with
    | zero =>
      obtain ⟨k, hk⟩ := AddressSpace.touch_tab_zero (a := a) (vpn va)
      rw [Nat.zero_mul, BitVec.add_zero]
      exact ⟨k, AddressSpace.run_tab_mono (vspaceRequests_valid _ _) hk⟩
    | succ i =>
      have hnext : va + BitVec.ofNat 64 ((i + 1) * 4096) =
          va + pageSize + BitVec.ofNat 64 (i * 4096) := by
        rw [BitVec.add_assoc, pageSize_eq, ← BitVec.ofNat_add, Nat.succ_mul, Nat.add_comm]
      rw [hnext]
      exact ih _ _ (by omega)

/-- An address of the range lies in one of its pages. -/
theorem PageAlloc.InRange.page {p : PageAlloc} {va : Vaddr} {numPages : BitVec 64}
    (h : p.InRange va numPages) (hva : va.toNat % 4096 = 0) :
    ∃ i, i < numPages.toNat ∧ vpn p.va = vpn (va + BitVec.ofNat 64 (i * 4096)) := by
  have hlt := (p.va - va).isLt
  have hp : p.va.toNat = (va.toNat + (p.va - va).toNat) % 2 ^ 64 := by
    rw [← BitVec.toNat_add, BitVec.add_comm, BitVec.sub_add_cancel]
  unfold PageAlloc.InRange at h
  refine ⟨(p.va - va).toNat / 4096, by omega, ?_⟩
  have hq : (va + BitVec.ofNat 64 ((p.va - va).toNat / 4096 * 4096)).toNat =
      (va.toNat + (p.va - va).toNat / 4096 * 4096) % 2 ^ 64 := by
    rw [BitVec.toNat_add, BitVec.toNat_ofNat, Nat.add_mod_mod]
  unfold vpn
  rw [hp, hq]
  omega

end

/-- **Pre-allocating a range makes its pages linear**: from every state the loader
can be in, as long as the allocations stay inside the EPM buffer. -/
theorem prealloc_linear (L : Layout) (s : Keystone) (hs : Reachable L s) (va : Vaddr)
    (hva : va.toNat % 4096 = 0) (numPages : BitVec 64) (allocs : List PageAlloc)
    (hvalid : ∀ p ∈ allocs, p.call.Valid) (hrange : ∀ p ∈ allocs, p.InRange va numPages)
    (hin : InBuffers L (stateAfter allocs (exec (epmAllocVspace va numPages) s).2)) :
    LinearFrom (exec (epmAllocVspace va numPages) s).2 allocs := by
  obtain ⟨a, hr⟩ := hs.repr
  set call : LoaderCall := .epmAllocVspace va numPages with hcall
  have hstate : (exec call.run s).2 = (exec (epmAllocVspace va numPages) s).2 := by
    rw [hcall, LoaderCall.run, exec_bind]
    rcases exec (epmAllocVspace va numPages) s with ⟨r, s'⟩
    cases r <;> rfl
  have hc : ∀ c ∈ call :: allocs.map PageAlloc.call, c.Valid := by
    intro c hmem
    rcases List.mem_cons.1 hmem with rfl | hmem
    · trivial
    · obtain ⟨p, hp, rfl⟩ := List.mem_map.1 hmem
      exact hvalid p hp
  have hfirst : InBuffers L (exec call.run s).2 := by
    rw [hstate]
    exact inBuffers_before [] hvalid hin
  obtain ⟨hr', -⟩ := @call_represents _ _ _ hr call [] (fun c hmem => hc c (by
    rw [List.mem_singleton] at hmem
    rw [hmem]
    exact List.mem_cons_self)) (by
      rw [runCalls, List.forM_cons, List.forM_nil, bind_pure_unit]
      exact hfirst)
  rw [hstate] at hr'
  refine linearFrom_of_tabled hr' hvalid (fun p hp => ?_) hin
  obtain ⟨i, hi, hpage⟩ := (hrange p hp).page hva
  rw [hpage]
  exact tabled_vspace _ _ _ hi

/-- The second page, and then the first, of a range that crosses a table border. -/
def smallAllocs : List PageAlloc :=
  [⟨0x200000#64, nullpage, userNoexec⟩, ⟨0x1ff000#64, nullpage, rtNoexec⟩]

theorem smallAllocs_pages :
    (stateAfter smallAllocs (exec (epmAllocVspace 0x1ff000#64 2#64) smallState).2).epmPages =
        [0x10000#64, 0x11000#64, 0x12000#64, 0x13000#64, 0x14000#64, 0x15000#64] ∧
      (stateAfter smallAllocs (exec (epmAllocVspace 0x1ff000#64 2#64) smallState).2).utmPages =
        [] := by
  decide +kernel

theorem prealloc_linear_small :
    LinearFrom (exec (epmAllocVspace 0x1ff000#64 2#64) smallState).2 smallAllocs :=
  prealloc_linear smallLayout smallState smallState_reachable 0x1ff000#64 (by decide) 2#64
    smallAllocs (by
      intro p hp
      simp only [smallAllocs, List.mem_cons, List.not_mem_nil, or_false] at hp
      rcases hp with rfl | rfl
      · exact ⟨by decide, by decide⟩
      · exact ⟨by decide, by decide⟩) (by
      intro p hp
      simp only [smallAllocs, List.mem_cons, List.not_mem_nil, or_false] at hp
      rcases hp with rfl | rfl <;> unfold PageAlloc.InRange <;> decide)
    (inBuffers_of_pages smallAllocs_pages.1 smallAllocs_pages.2 (by decide) (by decide))

end KeystoneSdk
