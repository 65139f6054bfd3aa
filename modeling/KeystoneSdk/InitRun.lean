/-
A whole run of `Keystone::init` for simulated parameters.

`init` prepares the EPM, loads both images and the stack into it, obtains the
UTM, maps the untrusted range and measures the enclave.  The load is a list of
requests that is known beforehand, so every state on the way represents an
address space that does not depend on the buffers.

* `init_eq` — `init` as requests, with what it remembers in between;
* `prepared_initial` — the state after `prepareEnclave`;
* `EpmPhase`, `init_ran` — the states of a run that stays inside its buffers;
* **`init_inBuffers_iff`** — the reservation of `prepareEnclave` is enough exactly
  when it has a page for every table and every page number;
* **`init_never_measures`** — a run that succeeds has measured nothing.
-/
import KeystoneSdk.Placement
import KeystoneSdk.Sha3Digest

open ByteMemory StopM

namespace KeystoneSdk

/-! ### `init` as requests -/

/-- What `init` remembers while it loads: where the EPM starts, and its free
pointer when each image set its `data_start` and when it was loaded. -/
structure InitPointers where
  startAddr : Vaddr
  runtimeData : Vaddr
  runtimeEnd : Vaddr
  userData : Vaddr
  userEnd : Vaddr

/-- The lines of `init` behind `initStack`. -/
def initFinish (params : Params) (utmMem : Vaddr) (enclp : KeystoneIoctlCreateEnclave)
    (p : InitPointers) : Loader InitOutcome := do
  let enclp := { enclp with
    runtimePaddr := (p.runtimeData - p.startAddr) + enclp.ptPtr
    userPaddr := (p.userData - p.startAddr) + enclp.ptPtr }
  let utmFreeList ← allocMem utmMem enclp.params.untrustedSize
  modify fun s => { s with utmFreeList := utmFreeList }
  let hashFreePaddr := ((← get).epmFreeList - p.startAddr) + enclp.ptPtr
  let _ ← loadUntrusted
  let enclp := { enclp with freePaddr := ((← get).epmFreeList - p.startAddr) + enclp.ptPtr }
  let hashEnclave : KeystoneHashEnclave :=
    { epmPaddr := (← get).rootPageTable
      epmSize := pageSize * enclp.minPages
      utmPaddr := utmFreeList
      utmSize := params.untrustedSize
      runtimePaddr := p.runtimeEnd
      userPaddr := p.userEnd
      freePaddr := hashFreePaddr
      untrustedPtr := enclp.params.untrustedPtr
      untrustedSize := enclp.params.untrustedSize }
  let verdict ← validateAndHashEnclave enclp.params hashEnclave
  return ⟨.keystoneSuccess, some (enclp, hashEnclave, verdict)⟩

/-- **`init`** prepares, asks for the pages of its images and of the stack, and
finishes. -/
theorem init_eq (runtimeFile enclaveFile : ELFFile) (params : Params) (epmMem utmMem : Vaddr)
    (enclp : KeystoneIoctlCreateEnclave) (dataStart : Vaddr) :
    init (some runtimeFile) (some enclaveFile) params epmMem utmMem enclp dataStart =
      prepareEnclave runtimeFile enclaveFile params epmMem enclp >>= fun enclp =>
      get >>= fun s₀ =>
      runAll runtimeFile.tableRequests >>= fun _ => get >>= fun s₁ =>
      runAll runtimeFile.dataRequests >>= fun _ => get >>= fun s₂ =>
      runAll enclaveFile.tableRequests >>= fun _ => get >>= fun s₃ =>
      runAll enclaveFile.dataRequests >>= fun _ => get >>= fun s₄ =>
      runAll (stackRequests defaultStackStart defaultStackSize false) >>= fun _ =>
      initFinish params utmMem enclp
        ⟨s₀.startAddr, s₁.epmFreeList, s₂.epmFreeList, s₃.epmFreeList, s₄.epmFreeList⟩ := by
  simp only [init, initFinish, loadELF_eq, initStack_eq, bind_assoc, pure_bind, ne_eq,
    not_true_eq_false, if_false]

/-! ### The EPM -/

/-- The block `calloc` returns for an EPM of `pages` pages. -/
structure EpmBlock (epmMem : Vaddr) (pages : BitVec 64) : Prop where
  pos : 0 < pages.toNat
  below_top : epmMem.toNat + 4096 * pages.toNat + 4096 < 2 ^ 64

section Prepare

variable {epmMem : Vaddr} {pages : BitVec 64}

/-- `AllocMem` rounds the block up to a page. -/
theorem utmStart_toNat {mem : Vaddr} (h : mem.toNat + 4095 < 2 ^ 64) :
    (utmStart mem).toNat = (mem.toNat + 4095) / 4096 * 4096 := by
  rw [utmStart_eq, roundDown_toNat, BitVec.toNat_add, show (4095#64).toNat = 4095 from rfl]
  omega

theorem no_utmPages_le : 0 + 0 ≤ 2 ^ 52 := by decide

theorem no_utmPages_lt : 0 < 2 ^ 52 := by decide

/-- The EPM of `prepareEnclave`, and no UTM yet. -/
def epmLayout (hb : EpmBlock epmMem pages) (utmBase : Vaddr) : Layout where
  epmFrame := (utmStart epmMem).toNat / 4096
  epmPages := pages.toNat
  utmFrame := 0
  utmPages := 0
  utmBase := utmBase
  utmBase_eq := fun h => absurd h (lt_irrefl 0)
  epm_le := by
    obtain ⟨hpos, htop⟩ := hb
    have hstart := utmStart_toNat (show epmMem.toNat + 4095 < 2 ^ 64 by omega)
    omega
  utm_le := no_utmPages_le
  epmPages_lt := by
    obtain ⟨hpos, htop⟩ := hb
    omega
  utmPages_lt := no_utmPages_lt
  disjoint := fun i j _ hj => absurd hj (Nat.not_lt_zero j)

@[simp] theorem epmLayout_epmFrame (hb : EpmBlock epmMem pages) (base : Vaddr) :
    (epmLayout hb base).epmFrame = (utmStart epmMem).toNat / 4096 := rfl

@[simp] theorem epmLayout_epmPages (hb : EpmBlock epmMem pages) (base : Vaddr) :
    (epmLayout hb base).epmPages = pages.toNat := rfl

theorem EpmBlock.start (hb : EpmBlock epmMem pages) :
    utmStart epmMem = frameAddr ((utmStart epmMem).toNat / 4096) 0 := by
  obtain ⟨hpos, htop⟩ := hb
  have hstart := utmStart_toNat (show epmMem.toNat + 4095 < 2 ^ 64 by omega)
  apply BitVec.eq_of_toNat_eq
  rw [frameAddr_toNat (by omega) (by decide)]
  omega

/-- What `prepareEnclave` fills in. -/
def prepared (runtimeFile enclaveFile : ELFFile) (params : Params)
    (enclp : KeystoneIoctlCreateEnclave) : KeystoneIoctlCreateEnclave :=
  { enclp with
    params :=
      { runtimeEntry := runtimeFile.entryPoint
        userEntry := enclaveFile.entryPoint
        untrustedPtr := params.untrusted
        untrustedSize := params.untrustedSize }
    minPages := minPages runtimeFile enclaveFile params
    runtimeVaddr := runtimeFile.minVaddr
    userVaddr := enclaveFile.minVaddr }

/-- The state behind `prepareEnclave`, with an EPM of `pages` pages. -/
def preparedState (params : Params) (epmMem : Vaddr) (pages : BitVec 64) (s : Keystone) : Keystone :=
  { mem := writeBytes s.mem epmMem (pageSize * pages + pageSize).toNat fun _ => 0
    rootPageTable := utmStart epmMem
    startAddr := utmStart epmMem
    epmFreeList := utmStart epmMem + pageSize
    utmFreeList := s.utmFreeList
    untrustedStart := params.untrusted
    untrustedSize := params.untrustedSize
    hash := s.hash
    epmPages := [utmStart epmMem]
    utmPages := [] }

theorem preparedState_hash (params : Params) (pages : BitVec 64) (s : Keystone) :
    (preparedState params epmMem pages s).hash = s.hash := by
  rw [preparedState]

theorem exec_prepareEnclave (runtimeFile enclaveFile : ELFFile) (params : Params)
    (enclp : KeystoneIoctlCreateEnclave) (s : Keystone) :
    exec (prepareEnclave runtimeFile enclaveFile params epmMem enclp) s =
      (.ok (prepared runtimeFile enclaveFile params enclp),
        preparedState params epmMem (minPages runtimeFile enclaveFile params) s) := by
  simp only [prepareEnclave, allocMem, bind_assoc, pure_bind, exec_bind, exec_modify, exec_pure]
  rfl

/-- **`prepareEnclave` leaves an empty root table** in a zeroed EPM. -/
theorem prepared_initial (hb : EpmBlock epmMem pages) (params : Params) (s : Keystone) :
    Repr.Initial (epmLayout hb s.utmFreeList) (preparedState params epmMem pages s) where
  room := hb.pos
  root := hb.start
  epmFree := by
    show utmStart epmMem + pageSize = frameAddr ((utmStart epmMem).toNat / 4096 + 1) 0
    rw [← frameAddr_add_pageSize, ← hb.start]
  utmFree := rfl
  zero := by
    intro fr o hin ho
    cases fr with
    | utm j => exact absurd hin (Nat.not_lt_zero j)
    | epm k =>
      have hk : k < pages.toNat := hin
      have htop := hb.below_top
      have hstart := utmStart_toNat (show epmMem.toNat + 4095 < 2 ^ 64 by omega)
      have hlen : (pageSize * pages + pageSize).toNat = 4096 * pages.toNat + 4096 := by
        rw [BitVec.toNat_add, BitVec.toNat_mul, pageSize_toNat,
          Nat.mod_eq_of_lt (show 4096 * pages.toNat < 2 ^ 64 by omega)]
        omega
      have hw := writeBytes_ofNat s.mem (fun _ => 0)
        (show epmMem.toNat + (4096 * pages.toNat + 4096) ≤ 2 ^ 64 by omega)
        (show 4096 * ((utmStart epmMem).toNat / 4096 + k) + o < 2 ^ 64 by omega)
      rw [BitVec.ofNat_toNat, BitVec.setWidth_eq] at hw
      have hnumber : (Frame.epm k).number (epmLayout hb s.utmFreeList) =
          (utmStart epmMem).toNat / 4096 + k := rfl
      rw [preparedState, hlen, hnumber, frameAddr]
      dsimp only
      rw [hw, if_pos (by omega)]
  epmLog := congrArg (fun x => [x]) hb.start
  utmLog := rfl

end Prepare

/-! ### The requests, one producer after the other -/

/-- A list of requests ran to its end, and what it means did. -/
structure Ran (L : Layout) (rs : List Request) (s : Keystone) (a : AddressSpace) (t : Keystone)
    (b : AddressSpace) : Prop where
  run : exec (runAll rs) s = (.ok ⟨⟩, t)
  meaning : exec (forM rs Request.apply) a = (.ok ⟨⟩, b)
  repr : Repr L t b

section Phase

variable {L : Layout} {s t : Keystone} {a b : AddressSpace} {rs rs' : List Request}

theorem ran (hr : Repr L s a) (hv : ∀ r ∈ rs, r.Valid) (hret : ∀ r ∈ rs, r.Returns)
    (hin : InBuffers L (exec (runAll rs) s).2) : ∃ t b, Ran L rs s a t b := by
  obtain ⟨hend, hrepr⟩ := run_represents hr hv hin
  have hok := AddressSpace.run_returns hv hret a
  rcases hx : exec (runAll rs) s with ⟨x, t⟩
  rcases hy : exec (forM rs Request.apply) a with ⟨y, b⟩
  rw [hx, hy] at hend hrepr
  rw [hy] at hok
  obtain rfl : y = .ok ⟨⟩ := hok
  obtain rfl : x = .ok ⟨⟩ := hend
  exact ⟨t, b, hx, hy, hrepr⟩

/-- The first of two lists of requests. -/
theorem ran_append (hr : Repr L s a) (hv : ∀ r ∈ rs ++ rs', r.Valid)
    (hret : ∀ r ∈ rs ++ rs', r.Returns) (hin : InBuffers L (exec (runAll (rs ++ rs')) s).2) :
    ∃ t b, Ran L rs s a t b ∧ InBuffers L (exec (runAll rs') t).2 := by
  rw [runAll_append] at hin
  have hfirst := hin.before (Grows.after LogsGrow.refl (runAll rs) (fun _ => grows_runAll rs') s)
  obtain ⟨t, b, hran⟩ := ran hr (fun r h => hv r (List.mem_append_left _ h))
    (fun r h => hret r (List.mem_append_left _ h)) hfirst
  rw [exec_bind_ok hran.run] at hin
  exact ⟨t, b, hran, hin⟩

/-- What follows a run that returned. -/
theorem Ran.exec_then {α : Type} {f : Loader α} (h : Ran L rs s a t b) :
    exec (runAll rs >>= fun _ => f) s = exec f t :=
  exec_bind_ok h.run

theorem Ran.meaning_append {c : AddressSpace} (h : Ran L rs s a t b)
    (h' : exec (forM rs' Request.apply) b = (.ok ⟨⟩, c)) :
    exec (forM (rs ++ rs') Request.apply) a = (.ok ⟨⟩, c) := by
  rw [forM_append, exec_bind_ok h.meaning, h']

end Phase

/-- The states of a run of `init` up to the stack. -/
structure EpmPhase (L : Layout) (runtimeFile enclaveFile : ELFFile) (s : Keystone) where
  t : Fin 5 → Keystone
  b : Fin 5 → AddressSpace
  runtimeTables : Ran L runtimeFile.tableRequests s AddressSpace.empty (t 0) (b 0)
  runtimePages : Ran L runtimeFile.dataRequests (t 0) (b 0) (t 1) (b 1)
  enclaveTables : Ran L enclaveFile.tableRequests (t 1) (b 1) (t 2) (b 2)
  enclavePages : Ran L enclaveFile.dataRequests (t 2) (b 2) (t 3) (b 3)
  stack : Ran L (stackRequests defaultStackStart defaultStackSize false) (t 3) (b 3) (t 4) (b 4)

section Epm

variable {L : Layout} {s : Keystone} {runtimeFile enclaveFile : ELFFile}

theorem epmRequests_valid (runtimeFile enclaveFile : ELFFile) :
    ∀ r ∈ epmRequests runtimeFile enclaveFile, r.Valid := by
  intro r h
  refine loadRequests_valid runtimeFile enclaveFile (0#64, 0#64) r ?_
  rw [loadRequests_eq]
  exact List.mem_append_left _ h

theorem epmRequests_returns (hr : runtimeFile.Loadable) (he : enclaveFile.Loadable) :
    ∀ r ∈ epmRequests runtimeFile enclaveFile, r.Returns := by
  intro r h
  refine loadRequests_returns hr he (show RangeEnds (0#64, 0#64) by unfold RangeEnds; decide) r ?_
  rw [loadRequests_eq]
  exact List.mem_append_left _ h

theorem epmPhase (hs : Repr L s AddressSpace.empty) (hr : runtimeFile.Loadable)
    (he : enclaveFile.Loadable)
    (hin : InBuffers L (exec (runAll (epmRequests runtimeFile enclaveFile)) s).2) :
    Nonempty (EpmPhase L runtimeFile enclaveFile s) := by
  have hv := epmRequests_valid runtimeFile enclaveFile
  have hret := epmRequests_returns hr he
  simp only [epmRequests, List.append_assoc] at hv hret hin
  obtain ⟨t₁, b₁, h₁, hin⟩ := ran_append hs hv hret hin
  replace hv := fun r h => hv r (List.mem_append_right _ h)
  replace hret := fun r h => hret r (List.mem_append_right _ h)
  obtain ⟨t₂, b₂, h₂, hin⟩ := ran_append h₁.repr hv hret hin
  replace hv := fun r h => hv r (List.mem_append_right _ h)
  replace hret := fun r h => hret r (List.mem_append_right _ h)
  obtain ⟨t₃, b₃, h₃, hin⟩ := ran_append h₂.repr hv hret hin
  replace hv := fun r h => hv r (List.mem_append_right _ h)
  replace hret := fun r h => hret r (List.mem_append_right _ h)
  obtain ⟨t₄, b₄, h₄, hin⟩ := ran_append h₃.repr hv hret hin
  obtain ⟨t₅, b₅, h₅⟩ := ran h₄.repr (fun r h => hv r (List.mem_append_right _ h))
    (fun r h => hret r (List.mem_append_right _ h)) hin
  exact ⟨⟨![t₁, t₂, t₃, t₄, t₅], ![b₁, b₂, b₃, b₄, b₅], h₁, h₂, h₃, h₄, h₅⟩⟩

/-- All requests up to the stack. -/
theorem EpmPhase.meaning (h : EpmPhase L runtimeFile enclaveFile s) :
    exec (forM (epmRequests runtimeFile enclaveFile) Request.apply) AddressSpace.empty =
      (.ok ⟨⟩, h.b 4) := by
  simp only [epmRequests, List.append_assoc]
  exact h.runtimeTables.meaning_append (h.runtimePages.meaning_append
    (h.enclaveTables.meaning_append (h.enclavePages.meaning_append h.stack.meaning)))

theorem EpmPhase.run (h : EpmPhase L runtimeFile enclaveFile s) :
    exec (runAll (epmRequests runtimeFile enclaveFile)) s = (.ok ⟨⟩, h.t 4) := by
  simp only [epmRequests, List.append_assoc, runAll_append, h.runtimeTables.exec_then,
    h.runtimePages.exec_then, h.enclaveTables.exec_then, h.enclavePages.exec_then]
  exact h.stack.run

end Epm

/-! ### The untrusted range and the measurement -/

/-- The regions `init` has the measurement check, when the EPM is used up to
`free` and its root table is at `root`. -/
def initRegions (params : Params) (utmMem : Vaddr) (enclp : KeystoneIoctlCreateEnclave)
    (p : InitPointers) (free root : Vaddr) : KeystoneHashEnclave where
  epmPaddr := root
  epmSize := pageSize * enclp.minPages
  utmPaddr := utmStart utmMem
  utmSize := params.untrustedSize
  runtimePaddr := p.runtimeEnd
  userPaddr := p.userEnd
  freePaddr := (free - p.startAddr) + enclp.ptPtr
  untrustedPtr := enclp.params.untrustedPtr
  untrustedSize := enclp.params.untrustedSize

/-- The lines of `init` behind `loadUntrusted`. -/
def initMeasure (params : Params) (utmMem : Vaddr) (enclp : KeystoneIoctlCreateEnclave)
    (p : InitPointers) (free : Vaddr) : Loader InitOutcome := do
  let s ← get
  let regions := initRegions params utmMem enclp p free s.rootPageTable
  let verdict ← validateAndHashEnclave enclp.params regions
  return ⟨.keystoneSuccess, some ({ enclp with
    runtimePaddr := (p.runtimeData - p.startAddr) + enclp.ptPtr
    userPaddr := (p.userData - p.startAddr) + enclp.ptPtr
    freePaddr := (s.epmFreeList - p.startAddr) + enclp.ptPtr }, regions, verdict)⟩

section Finish

variable (params : Params) (utmMem : Vaddr) (enclp : KeystoneIoctlCreateEnclave)
  (p : InitPointers)

theorem initFinish_eq :
    initFinish params utmMem enclp p =
      obtainUtm utmMem enclp.params.untrustedSize >>= fun _ => get >>= fun s => get >>= fun u =>
        runAll (untrustedRequests u.untrustedStart u.untrustedSize) >>= fun _ =>
          initMeasure params utmMem enclp p s.epmFreeList := by
  simp only [initFinish, obtainUtm, allocMem, loadUntrusted_eq, bind_assoc, pure_bind]
  refine congrArg _ (funext fun _ => congrArg _ (funext fun _ => congrArg _ (funext fun s =>
    congrArg _ (funext fun u => congrArg _ (funext fun _ => ext_exec fun t => ?_)))))
  rw [exec_bind_ok (exec_get t), exec_bind_ok (exec_get t), initMeasure,
    exec_bind_ok (exec_get t)]
  rfl

theorem exec_initFinish (t : Keystone) :
    exec (initFinish params utmMem enclp p) t =
      exec (runAll (untrustedRequests t.untrustedStart t.untrustedSize) >>= fun _ =>
        initMeasure params utmMem enclp p t.epmFreeList)
        (exec (obtainUtm utmMem enclp.params.untrustedSize) t).2 := by
  obtain ⟨hstart, hsize⟩ := obtainUtm_range utmMem enclp.params.untrustedSize t
  have hfree : (exec (obtainUtm utmMem enclp.params.untrustedSize) t).2.epmFreeList =
      t.epmFreeList := by
    rw [exec_obtainUtm]
  have hok : exec (obtainUtm utmMem enclp.params.untrustedSize) t =
      (.ok ⟨⟩, (exec (obtainUtm utmMem enclp.params.untrustedSize) t).2) := by
    rw [exec_obtainUtm]
  rw [initFinish_eq, exec_bind_ok hok, exec_bind_ok (exec_get _), exec_bind_ok (exec_get _), hstart,
    hsize, hfree]

theorem grows_validateAndHashEnclave (args : RuntimeParams) (cargs : KeystoneHashEnclave) :
    Grows LogsGrow (validateAndHashEnclave args cargs) := by
  intro s
  rw [exec_validateAndHashEnclave]
  split
  · exact LogsGrow.refl s
  · exact LogsGrow.refl s

theorem grows_initMeasure (free : Vaddr) :
    Grows LogsGrow (initMeasure params utmMem enclp p free) :=
  (grows_get LogsGrow.refl).bind LogsGrow.trans fun _ =>
    (grows_validateAndHashEnclave _ _).bind LogsGrow.trans fun _ => grows_pure LogsGrow.refl _

/-- The measurement takes no pages. -/
theorem initMeasure_pages (free : Vaddr) (t : Keystone) :
    (exec (initMeasure params utmMem enclp p free) t).2.epmPages = t.epmPages ∧
      (exec (initMeasure params utmMem enclp p free) t).2.utmPages = t.utmPages := by
  rw [initMeasure, exec_bind_ok (exec_get t)]
  dsimp only
  rw [exec_bind, exec_validateAndHashEnclave]
  split <;> rename_i h <;> split at h <;> cases h <;> exact ⟨rfl, rfl⟩

end Finish

/-! ### The buffers of `init` -/

/-- The two blocks `calloc` returns: they end below the top of the address space
and have no byte in common. -/
structure InitBlocks (pages size : BitVec 64) (epmMem utmMem : Vaddr) : Prop where
  epm : EpmBlock epmMem pages
  below_top : utmMem.toNat + size.toNat + 4096 < 2 ^ 64
  apart : utmMem.toNat + size.toNat + 4096 ≤ (utmStart epmMem).toNat ∨
    (utmStart epmMem).toNat + 4096 * pages.toNat ≤ utmMem.toNat

section Buffers

variable {pages size : BitVec 64} {epmMem utmMem : Vaddr}

theorem InitBlocks.utmBlock (hb : InitBlocks pages size epmMem utmMem) (base : Vaddr) :
    UtmBlock (epmLayout hb.epm base) utmMem size := by
  have htop := hb.below_top
  have hapart := hb.apart
  have hpages := hb.epm.below_top
  have hstart := utmStart_toNat (show epmMem.toNat + 4095 < 2 ^ 64 by omega)
  have hlen : (size + pageSize).toNat = size.toNat + 4096 := by
    rw [BitVec.toNat_add, pageSize_toNat, Nat.mod_eq_of_lt (by omega)]
  constructor
  · rw [hlen]
    omega
  · rw [hlen, epmLayout_epmFrame, epmLayout_epmPages]
    have hdiv : 4096 * ((utmStart epmMem).toNat / 4096) = (utmStart epmMem).toNat := by
      rw [hstart]
      omega
    rw [Nat.mul_add, hdiv, ← Nat.add_assoc]
    exact hapart

/-- Both buffers of `init`. -/
def initLayout (hb : InitBlocks pages size epmMem utmMem) : Layout :=
  withUtm (hb.utmBlock 0#64) (by have htop := hb.below_top; omega)

@[simp] theorem initLayout_epmFrame (hb : InitBlocks pages size epmMem utmMem) :
    (initLayout hb).epmFrame = (utmStart epmMem).toNat / 4096 := rfl

@[simp] theorem initLayout_epmPages (hb : InitBlocks pages size epmMem utmMem) :
    (initLayout hb).epmPages = pages.toNat := rfl

@[simp] theorem initLayout_utmFrame (hb : InitBlocks pages size epmMem utmMem) :
    (initLayout hb).utmFrame = (utmStart utmMem).toNat / 4096 := rfl

@[simp] theorem initLayout_utmBase (hb : InitBlocks pages size epmMem utmMem) :
    (initLayout hb).utmBase = utmStart utmMem := rfl

@[simp] theorem initLayout_utmPages (hb : InitBlocks pages size epmMem utmMem) :
    (initLayout hb).utmPages = size.toNat / 4096 := rfl

theorem initLayout_inEpm (hb : InitBlocks pages size epmMem utmMem) (base : Vaddr) (q : Vaddr) :
    (initLayout hb).InEpm q ↔ (epmLayout hb.epm base).InEpm q := by
  rw [Layout.InEpm, Layout.InEpm, initLayout_epmFrame, initLayout_epmPages, epmLayout_epmFrame,
    epmLayout_epmPages]

theorem initLayout_fits (hb : InitBlocks pages size epmMem utmMem) (a : AddressSpace) :
    a.Fits (initLayout hb) ↔ a.epmUsed ≤ pages.toNat ∧ a.utmUsed ≤ size.toNat / 4096 := by
  rw [AddressSpace.Fits, initLayout_epmPages, initLayout_utmPages]

theorem epmLayout_fits (hb : EpmBlock epmMem pages) (base : Vaddr) (a : AddressSpace) :
    a.Fits (epmLayout hb base) ↔ a.epmUsed ≤ pages.toNat ∧ a.utmUsed ≤ 0 := by
  rw [AddressSpace.Fits, epmLayout_epmPages, epmLayout]

/-- Once the UTM is there, both buffers are. -/
theorem InitBlocks.represents (hb : InitBlocks pages size epmMem utmMem) {base : Vaddr}
    {s : Keystone} {a : AddressSpace} (hr : Repr (epmLayout hb.epm base) s a) :
    Repr (initLayout hb) (exec (obtainUtm utmMem size) s).2 a := by
  have hsize : size.toNat + 4096 < 2 ^ 64 := by
    have htop := hb.below_top
    omega
  exact obtainUtm_represents hr rfl (hb.utmBlock base) hsize

end Buffers

/-! ### The pages of a run -/

/-- What the EPM of `init` is not asked for, comes from no UTM. -/
theorem AddressSpace.apply_utmUsed {r : Request} (hv : r.Valid) (hd : r.draws .utm = none)
    (a : AddressSpace) : (exec r.apply a).2.utmUsed = a.utmUsed := by
  cases r with
  | walk va => exact touch_utmUsed _
  | stop reason => rfl
  | alloc va l src mode =>
    obtain ⟨flags, hf⟩ := Option.isSome_iff_exists.mp hv
    cases l with
    | utm => cases hd
    | epm =>
      rw [exec_apply_alloc a va .epm src hf, place_used.2]
      split
      · exact touch_utmUsed _
      · exact touch_utmUsed _

section Run

variable {runtimeFile enclaveFile : ELFFile} {params : Params} {epmMem utmMem : Vaddr}
  {s : Keystone}

/-- The requests for EPM pages take no UTM page. -/
theorem epmRequests_utmPages (hr : runtimeFile.Loadable) (he : enclaveFile.Loadable)
    (s : Keystone) :
    (exec (runAll (epmRequests runtimeFile enclaveFile)) s).2.utmPages = s.utmPages := by
  have hepm : ∀ t : Keystone, (t.popPage .epm).utmPages = t.utmPages := fun t => by
    simp [Keystone.popPage]
  refine runAll_keeps (fun _ _ => rfl) hepm ?_ s
  intro va l src mode hmem t
  have hd := epmRequests_draws_utm hr he _ hmem
  cases l with
  | epm => exact hepm t
  | utm => cases hd

theorem epmRequests_utmUsed (hr : runtimeFile.Loadable) (he : enclaveFile.Loadable) :
    (exec (forM (epmRequests runtimeFile enclaveFile) Request.apply)
      AddressSpace.empty).2.utmUsed = 0 :=
  forM_preserves (P := fun b : AddressSpace => b.utmUsed = 0) _
    (fun r hmem b hb => (AddressSpace.apply_utmUsed (epmRequests_valid _ _ r hmem)
      (epmRequests_draws_utm hr he r hmem) b).trans hb) rfl

theorem WholePages.rangeEnds {start size : BitVec 64} (h : WholePages start size) :
    RangeEnds (start, size) := by
  obtain ⟨h1, h2, h3, h4⟩ := h
  show start.toNat + size.toNat + 4095 < 2 ^ 64
  omega

/-- A UTM of as many bytes as the range has is large enough. -/
theorem WholePages.utmNeed_le {start size : BitVec 64} (h : WholePages start size)
    (runtimeFile enclaveFile : ELFFile) :
    utmNeed runtimeFile enclaveFile (start, size) ≤ size.toNat / 4096 := by
  obtain ⟨h1, h2, h3, h4⟩ := h
  have hsub := Finset.card_le_card (Finset.sdiff_subset (s := untrustedVpns start size)
    (t := epmVpns runtimeFile enclaveFile))
  have himage := Finset.card_image_le
    (s := Finset.range ((start.toNat + size.toNat + 4095) / 4096 - start.toNat / 4096))
    (f := fun i => (start.toNat / 4096 + i) % 2 ^ 27)
  rw [Finset.card_range] at himage
  change (untrustedVpns start size).card ≤ _ at himage
  show (untrustedVpns start size \ epmVpns runtimeFile enclaveFile).card ≤ _
  omega

/-- What `init` remembers in a run. -/
def EpmPhase.pointers {L : Layout} (h : EpmPhase L runtimeFile enclaveFile s) : InitPointers where
  startAddr := s.startAddr
  runtimeData := (h.t 0).epmFreeList
  runtimeEnd := (h.t 1).epmFreeList
  userData := (h.t 2).epmFreeList
  userEnd := (h.t 3).epmFreeList

theorem untrustedRequests_valid (start size : BitVec 64) :
    ∀ r ∈ untrustedRequests start size, r.Valid :=
  untrustedLoopRequests_valid _ _ _

/-- **The run of `init`** behind the stack. -/
theorem EpmPhase.exec_init {L : Layout} {pages : BitVec 64}
    (h : EpmPhase L runtimeFile enclaveFile (preparedState params epmMem pages s))
    (hpages : pages = minPages runtimeFile enclaveFile params)
    (enclp : KeystoneIoctlCreateEnclave) (dataStart : Vaddr) :
    exec (init (some runtimeFile) (some enclaveFile) params epmMem utmMem enclp dataStart) s =
      exec (runAll (untrustedRequests params.untrusted params.untrustedSize) >>= fun _ =>
        initMeasure params utmMem (prepared runtimeFile enclaveFile params enclp) h.pointers
          (h.t 4).epmFreeList)
        (exec (obtainUtm utmMem params.untrustedSize) (h.t 4)).2 := by
  subst hpages
  have hrange := runAll_range (epmRequests runtimeFile enclaveFile)
    (preparedState params epmMem (minPages runtimeFile enclaveFile params) s)
  rw [h.run] at hrange
  have hstart : (h.t 4).untrustedStart = params.untrusted := congrArg Prod.fst hrange
  have hsize : (h.t 4).untrustedSize = params.untrustedSize := congrArg Prod.snd hrange
  rw [init_eq, exec_bind_ok (exec_prepareEnclave _ _ _ _ _), exec_bind_ok (exec_get _),
    h.runtimeTables.exec_then, exec_bind_ok (exec_get _), h.runtimePages.exec_then,
    exec_bind_ok (exec_get _), h.enclaveTables.exec_then, exec_bind_ok (exec_get _),
    h.enclavePages.exec_then, exec_bind_ok (exec_get _), h.stack.exec_then, exec_initFinish,
    hstart, hsize]
  rfl

end Run

/-! ### The reservation -/

section Reservation

variable {runtimeFile enclaveFile : ELFFile} {params : Params} {epmMem utmMem : Vaddr}

theorem grows_initFinish (params : Params) (utmMem : Vaddr) (enclp : KeystoneIoctlCreateEnclave)
    (p : InitPointers) : Grows LogsGrow (initFinish params utmMem enclp p) := by
  intro t
  have hutm : LogsGrow t (exec (obtainUtm utmMem enclp.params.untrustedSize) t).2 := by
    rw [exec_obtainUtm]
    exact ⟨List.prefix_rfl, List.prefix_rfl⟩
  rw [exec_initFinish]
  exact hutm.trans _ _ _ (((grows_runAll _).bind LogsGrow.trans fun _ =>
    grows_initMeasure params utmMem enclp p t.epmFreeList) _)

/-- What follows some requests, when it takes what more requests take. -/
theorem logs_then {α : Type} {l l' : List Request} {m : Loader α}
    (h : ∀ t, LogsGrow (exec (runAll l') t).2 (exec m t).2) (s : Keystone) :
    LogsGrow (exec (runAll (l ++ l')) s).2 (exec (runAll l >>= fun _ => m) s).2 := by
  rw [runAll_append, exec_bind, exec_bind]
  rcases exec (runAll l) s with ⟨r, t⟩
  cases r with
  | error e => exact LogsGrow.refl t
  | ok u => exact h t

/-- `init` takes all the pages its images and its stack ask for. -/
theorem init_logs (enclp : KeystoneIoctlCreateEnclave) (dataStart : Vaddr) (s : Keystone) :
    LogsGrow (exec (runAll (epmRequests runtimeFile enclaveFile))
        (preparedState params epmMem (minPages runtimeFile enclaveFile params) s)).2
      (exec (init (some runtimeFile) (some enclaveFile) params epmMem utmMem enclp dataStart)
        s).2 := by
  rw [init_eq, exec_bind_ok (exec_prepareEnclave _ _ _ _ _), exec_bind_ok (exec_get _)]
  simp only [epmRequests, List.append_assoc]
  refine logs_then (fun t₁ => ?_) _
  rw [exec_bind_ok (exec_get t₁)]
  refine logs_then (fun t₂ => ?_) _
  rw [exec_bind_ok (exec_get t₂)]
  refine logs_then (fun t₃ => ?_) _
  rw [exec_bind_ok (exec_get t₃)]
  refine logs_then (fun t₄ => ?_) _
  rw [exec_bind_ok (exec_get t₄)]
  exact Grows.after LogsGrow.refl _ (fun _ => grows_initFinish _ _ _ _) t₄

/-- The requests up to the stack, in the EPM alone. -/
theorem init_epm_inBuffers (hr : runtimeFile.Loadable) (he : enclaveFile.Loadable)
    {pages size : BitVec 64} (hb : InitBlocks pages size epmMem utmMem) {s t : Keystone}
    (hutm : s.utmPages = []) (hgrow : LogsGrow (exec (runAll (epmRequests runtimeFile enclaveFile)) s).2 t)
    (hin : InBuffers (initLayout hb) t) (base : Vaddr) :
    InBuffers (epmLayout hb.epm base)
      (exec (runAll (epmRequests runtimeFile enclaveFile)) s).2 where
  epm := fun p hp => (initLayout_inEpm hb base p).mp ((hin.before hgrow).epm p hp)
  utm := by
    rw [epmRequests_utmPages hr he, hutm]
    exact fun p hp => absurd hp List.not_mem_nil

/-- A run of `init` with a reservation that is large enough. -/
theorem init_ran (hr : runtimeFile.Loadable) (he : enclaveFile.Loadable)
    (hwhole : WholePages params.untrusted params.untrustedSize)
    (hb : InitBlocks (minPages runtimeFile enclaveFile params) params.untrustedSize epmMem utmMem)
    (hneed : epmNeed runtimeFile enclaveFile (params.untrusted, params.untrustedSize) ≤
      (minPages runtimeFile enclaveFile params).toNat) (s : Keystone) :
    ∃ (phase : EpmPhase (epmLayout hb.epm s.utmFreeList) runtimeFile enclaveFile
        (preparedState params epmMem (minPages runtimeFile enclaveFile params) s)) (t : Keystone)
      (b : AddressSpace), Ran (initLayout hb)
        (untrustedRequests params.untrusted params.untrustedSize)
        (exec (obtainUtm utmMem params.untrustedSize) (phase.t 4)).2 (phase.b 4) t b := by
  have hs := Repr.of_initial (prepared_initial hb.epm params s)
  have hused := loadRequests_used hr he hwhole.rangeEnds
  have hreturns := loadRequests_returns hr he hwhole.rangeEnds
  rw [loadRequests_eq] at hused hreturns
  dsimp only at hused hreturns
  have hfits : (exec (forM (epmRequests runtimeFile enclaveFile ++
      untrustedRequests params.untrusted params.untrustedSize) Request.apply)
        AddressSpace.empty).2.Fits (initLayout hb) := by
    rw [initLayout_fits, hused.1, hused.2]
    exact ⟨hneed, hwhole.utmNeed_le runtimeFile enclaveFile⟩
  -- the pages up to the stack are some of them
  have hfirst : (exec (forM (epmRequests runtimeFile enclaveFile) Request.apply)
      AddressSpace.empty).2.Fits (epmLayout hb.epm s.utmFreeList) := by
    have hle := Grows.after UsedGrow.refl
      (forM (epmRequests runtimeFile enclaveFile) Request.apply)
      (fun _ => run_usedGrow (untrustedRequests params.untrusted params.untrustedSize))
      AddressSpace.empty
    rw [← forM_append] at hle
    rw [epmLayout_fits]
    exact ⟨Nat.le_trans hle ((initLayout_fits hb _).mp hfits).1, (epmRequests_utmUsed hr he).le⟩
  have hepm := (run_inBuffers_iff hs (epmRequests_valid runtimeFile enclaveFile)).mpr hfirst
  obtain ⟨phase⟩ := epmPhase hs hr he hepm
  rw [forM_append, exec_bind_ok phase.meaning] at hfits
  have hrepr := hb.represents phase.stack.repr
  obtain ⟨t, b, hran⟩ := ran hrepr (untrustedRequests_valid _ _)
    (fun r h => hreturns r (List.mem_append_right _ h))
    ((run_inBuffers_iff hrepr (untrustedRequests_valid _ _)).mpr hfits)
  exact ⟨phase, t, b, hran⟩

/-- **The reservation of `prepareEnclave`**: for all loadable images, all
parameters with an untrusted range of whole pages, and all blocks, `init` takes
no page outside the EPM and the UTM exactly when `min_pages` has a page for the
root table, for every page table, and for every page number. -/
theorem init_inBuffers_iff (hr : runtimeFile.Loadable) (he : enclaveFile.Loadable)
    (hwhole : WholePages params.untrusted params.untrustedSize)
    (hb : InitBlocks (minPages runtimeFile enclaveFile params) params.untrustedSize epmMem utmMem)
    (enclp : KeystoneIoctlCreateEnclave) (dataStart : Vaddr) (s : Keystone) :
    InBuffers (initLayout hb)
        (exec (init (some runtimeFile) (some enclaveFile) params epmMem utmMem enclp dataStart)
          s).2 ↔
      epmNeed runtimeFile enclaveFile (params.untrusted, params.untrustedSize) ≤
        (minPages runtimeFile enclaveFile params).toNat := by
  have hs := Repr.of_initial (prepared_initial hb.epm params s)
  have hused := loadRequests_used hr he hwhole.rangeEnds
  rw [loadRequests_eq] at hused
  dsimp only at hused
  constructor
  · -- a run inside the buffers is one of all requests, which take exactly what they need
    intro hin
    have hepm := init_epm_inBuffers hr he hb rfl (init_logs enclp dataStart s) hin s.utmFreeList
    obtain ⟨phase⟩ := epmPhase hs hr he hepm
    rw [phase.exec_init rfl] at hin
    have hrun := hin.before (Grows.after LogsGrow.refl (runAll _)
      (fun _ => grows_initMeasure _ _ _ _ _) _)
    have hfits := (run_inBuffers_iff (hb.represents phase.stack.repr)
      (untrustedRequests_valid _ _)).mp hrun
    rw [forM_append, exec_bind_ok phase.meaning] at hused
    rw [← hused.1]
    exact ((initLayout_fits hb _).mp hfits).1
  · -- the measurement behind them takes no page
    intro hneed
    obtain ⟨phase, t, b, hran⟩ := init_ran hr he hwhole hb hneed s
    rw [phase.exec_init rfl, hran.exec_then]
    obtain ⟨h1, h2⟩ := initMeasure_pages params utmMem
      (prepared runtimeFile enclaveFile params enclp) phase.pointers (phase.t 4).epmFreeList t
    have hin := hran.repr.inBuffers
    constructor
    · rw [h1]
      exact hin.epm
    · rw [h2]
      exact hin.utm

end Reservation

/-! ### A small run -/

/-- An untrusted range of two pages, and 256 free pages. -/
def smallParams : Params where
  simulated := true
  untrusted := 0x80000000#64
  untrustedSize := 0x2000#64
  freememSize := 0x100000#64

/-- An uninitialized local variable. -/
def smallEnclp : KeystoneIoctlCreateEnclave where
  minPages := 0#64
  runtimeVaddr := 0#64
  userVaddr := 0#64
  ptPtr := 0x1234#64
  runtimePaddr := 0#64
  userPaddr := 0#64
  freePaddr := 0#64
  params := ⟨0#64, 0#64, 0#64, 0#64⟩

theorem smallParams_wholePages :
    WholePages smallParams.untrusted smallParams.untrustedSize :=
  ⟨by decide, by decide, by decide, by decide⟩

theorem smallParams_minPages : minPages smallRuntime alignedElf smallParams = 274#64 := by
  decide

theorem smallBlocks : InitBlocks (minPages smallRuntime alignedElf smallParams)
    smallParams.untrustedSize 0x1000010#64 0x2000010#64 := by
  rw [smallParams_minPages]
  exact ⟨⟨by decide, by decide⟩, by decide, by decide⟩

theorem init_inBuffers_iff_small :
    InBuffers (initLayout smallBlocks)
        (exec (init (some smallRuntime) (some alignedElf) smallParams 0x1000010#64 0x2000010#64
          smallEnclp 0#64) smallState).2 ↔
      epmNeed smallRuntime alignedElf (smallParams.untrusted, smallParams.untrustedSize) ≤
        (minPages smallRuntime alignedElf smallParams).toNat :=
  init_inBuffers_iff smallRuntime_loadable alignedElf_loadable smallParams_wholePages smallBlocks
    smallEnclp 0#64 smallState

/-! ### The measurement of `init` -/

/-- An entry that is never accepted ends the fold. -/
theorem foldlM_of_rejected {α β : Type} {f : β → α → Option β} {l : List α} {x : α} (hx : x ∈ l)
    (h : ∀ b, f b x = none) (b : β) : l.foldlM f b = none := by
  induction l generalizing b with
  | nil => cases hx
  | cons y l ih =>
    rw [List.foldlM_cons]
    rcases List.mem_cons.mp hx with rfl | hx
    · rw [h]
      rfl
    · cases f b y with
      | none => rfl
      | some b' => exact ih hx b'

section Rejected

variable {L : Layout} {s : Keystone} {a : AddressSpace} {cargs : KeystoneHashEnclave}

/-- A mapped page that is never accepted ends the measurement. -/
theorem validateTable_of_rejected (hr : Repr L s a) {v : ℕ} {lf : Leaf}
    (hl : a.leaf v = some lf)
    (hrejected : ∀ st, validateLeaf s.mem cargs (lf.pte L) (pageVa v) st = none)
    (hashed : List Byte) : (validateTable s.mem cargs s.rootPageTable hashed).1 = -1 := by
  have hroot := table_leaf_iff hr 0#64 le_rfl hr.wf.root (fun i hi => by
    rw [Nat.mul_zero, Nat.zero_add]
    exact startsAt_root hi)
  have hrange := hr.wf.leaf_range hl
  obtain ⟨hmem, -⟩ := (hroot _).2 ⟨v, lf, hl, Nat.div_eq_of_lt (by norm_num; omega), rfl⟩
  have hentries : (⟨1, pageVa v, lf.pte L⟩ : Entry) ∈ allEntries s.mem s.rootPageTable := by
    rw [show s.rootPageTable = frameAddr (L.epmFrame + 0) 0 from hr.root]
    exact hmem
  have hne : lf.pte L ≠ 0#64 := pteCreate_ne_zero _ _
  refine (validateTable_follows s.mem cargs s.rootPageTable hashed).ended
    (foldlM_of_rejected hentries (fun st => ?_) _)
  rw [walkEntry, if_neg hne]
  split
  · rfl
  · rw [if_pos rfl]
    dsimp only
    rw [hrejected]
    rfl

/-- A page outside all regions is never accepted. -/
theorem validateLeaf_outside (m : Mem) {pte : Pte} (hruntime : cargs.inRuntime (ptePhys pte) = false)
    (huser : cargs.inUser (ptePhys pte) = false) (hutm : cargs.mapInUtm (ptePhys pte) = false)
    (va : Vaddr) (st : WalkState) : validateLeaf m cargs pte va st = none := by
  rw [validateLeaf]
  simp only [hruntime, huser, hutm, Bool.false_eq_true, false_and, if_false, ite_self]

/-- An EPM page below the first two boundaries lies in no region. -/
theorem validateLeaf_below (hlt : L.utmFrame + L.utmPages < 2 ^ 52)
    (hepm : L.epmFrame + L.epmPages < 2 ^ 52) (m : Mem) {k n n' : ℕ} {lf : Leaf}
    (hfr : lf.frame = .epm k) (hflags : lf.flags.toNat < 1024) (hk : k < n) (hn : n ≤ n')
    (hn' : n' ≤ L.epmPages) (hutm : cargs.utmPaddr = L.utmBase)
    (hsize : cargs.utmSize.toNat ≤ 4096 * L.utmPages)
    (hruntime : cargs.runtimePaddr = frameAddr (L.epmFrame + n) 0)
    (huser : cargs.userPaddr = frameAddr (L.epmFrame + n') 0) (va : Vaddr) (st : WalkState) :
    validateLeaf m cargs (lf.pte L) va st = none := by
  have hin : (Frame.epm k).Inside L := show k < L.epmPages by omega
  have hphys : ptePhys (lf.pte L) = frameAddr (L.epmFrame + k) 0 := by
    rw [Leaf.pte, hfr]
    exact ptePpn_shiftLeft hin.number_lt hflags
  have hbelow : ∀ {x : ℕ}, k < x → x ≤ L.epmPages →
      ¬ frameAddr (L.epmFrame + x) 0 ≤ frameAddr (L.epmFrame + k) 0 := by
    intro x hx hle
    rw [frameAddr_le_iff (by omega) (by omega)]
    omega
  refine validateLeaf_outside m ?_ ?_ ?_ va st
  · rw [hphys, KeystoneHashEnclave.inRuntime, hruntime, decide_eq_false (hbelow hk (by omega))]
    rfl
  · rw [hphys, KeystoneHashEnclave.inUser, huser, decide_eq_false (hbelow (by omega) hn')]
    rfl
  · have hmap : (regionsAt L (0, 0) 0 (0#64, cargs.utmSize)).mapInUtm
        (frameAddr (L.epmFrame + k) 0) = false :=
      mapInUtm_regionsAt hlt hsize hin
    rw [hphys, KeystoneHashEnclave.mapInUtm, hutm]
    exact hmap

end Rejected

/-- A request changes no hash. -/
theorem runAll_hash (rs : List Request) (s : Keystone) : (exec (runAll rs) s).2.hash = s.hash := by
  have hpop : ∀ (l : FreeList) (t : Keystone), (t.popPage l).hash = t.hash := by
    intro l t
    cases l <;> simp [Keystone.popPage]
  exact runAll_keeps (fun _ _ => rfl) (hpop .epm) (fun _ l _ _ _ => hpop l) s

section Measured

variable {runtimeFile enclaveFile : ELFFile} {params : Params} {epmMem utmMem : Vaddr}

/-- The pages of the runtime image are mapped once it is loaded, to pages that
were taken by then. -/
theorem EpmPhase.runtime_leaf {L : Layout} {s : Keystone}
    (h : EpmPhase L runtimeFile enclaveFile s) (hr : runtimeFile.Loadable) (hutm : L.utmPages = 0)
    {v : ℕ} (hv : v ∈ runtimeFile.imagePages) :
    ∃ lf k, (h.b 1).leaf v = some lf ∧ lf.frame = .epm k ∧ k < (h.b 1).epmUsed := by
  have hreturns : ∀ r ∈ runtimeFile.dataRequests, r.Returns := by
    intro r hmem
    obtain ⟨x, hx, rfl⟩ := hr.mem_dataRequests hmem
    exact (hr.request hx).1
  have hmapped := AddressSpace.run_unmapped runtimeFile.dataRequests_valid hreturns
    (X := runtimeFile.imagePages) (fun v hv => by
      rw [← hr.dataRequests_page] at hv
      obtain ⟨r, hmem, hp⟩ := hv
      obtain ⟨x, hx, rfl⟩ := hr.mem_dataRequests hmem
      obtain ⟨-, hpage, hdraws, -⟩ := hr.request hx
      exact ⟨_, hmem, .epm, by rw [hdraws, ← hpage, hp]⟩) (h.b 0)
  rw [h.runtimePages.meaning, AddressSpace.unmapped, Finset.card_eq_zero,
    Finset.filter_eq_empty_iff] at hmapped
  obtain ⟨lf, hl⟩ := Option.ne_none_iff_exists'.mp (hmapped hv)
  have hheld := h.runtimePages.repr.wf.leaf_held hl
  have hin := h.runtimePages.repr.leaf_inside hl
  cases hfr : lf.frame with
  | epm k =>
    rw [hfr] at hheld
    exact ⟨lf, k, hl, hfr, hheld⟩
  | utm j =>
    rw [hfr, Frame.Inside, hutm] at hin
    exact absurd hin (Nat.not_lt_zero j)

/-- **`init` never measures an enclave**: it sets the boundary of the runtime
behind the pages of the runtime instead of in front of them, so these pages lie
in no region and the measurement fails.  `init` does not look at that and
reports success, and the hash is what it was. -/
theorem init_never_measures (hr : runtimeFile.Loadable) (he : enclaveFile.Loadable)
    (hwhole : WholePages params.untrusted params.untrustedSize)
    (hb : InitBlocks (minPages runtimeFile enclaveFile params) params.untrustedSize epmMem utmMem)
    (hneed : epmNeed runtimeFile enclaveFile (params.untrusted, params.untrustedSize) ≤
      (minPages runtimeFile enclaveFile params).toNat)
    (hpages : runtimeFile.imagePages.Nonempty) (enclp : KeystoneIoctlCreateEnclave)
    (dataStart : Vaddr) (s : Keystone) :
    (∃ enclp' regions,
      (exec (init (some runtimeFile) (some enclaveFile) params epmMem utmMem enclp dataStart)
        s).1 = .ok ⟨.keystoneSuccess, some (enclp', regions, .keystoneError)⟩) ∧
      (exec (init (some runtimeFile) (some enclaveFile) params epmMem utmMem enclp dataStart)
        s).2.hash = s.hash := by
  obtain ⟨phase, t, b, hran⟩ := init_ran hr he hwhole hb hneed s
  -- a page of the runtime, at the end
  obtain ⟨v, hv⟩ := hpages
  obtain ⟨lf, k, hl, hfr, hk⟩ := phase.runtime_leaf hr rfl hv
  have hmono : ∀ {rs : List Request} {x y : AddressSpace}, (∀ r ∈ rs, r.Valid) →
      exec (forM rs Request.apply) x = (.ok ⟨⟩, y) → x.leaf v = some lf → y.leaf v = some lf := by
    intro rs x y hvalid hx hleaf
    have hmono := AddressSpace.run_leaf_mono hvalid hleaf
    rwa [hx] at hmono
  have hused : ∀ {rs : List Request} {x y : AddressSpace},
      exec (forM rs Request.apply) x = (.ok ⟨⟩, y) → x.epmUsed ≤ y.epmUsed := by
    intro rs x y hx
    have hle := run_usedGrow rs x
    rwa [hx] at hle
  have hlast : b.leaf v = some lf :=
    hmono (untrustedRequests_valid _ _) hran.meaning
      (hmono (stackLoopRequests_valid _ _ _) phase.stack.meaning
        (hmono enclaveFile.dataRequests_valid phase.enclavePages.meaning
          (hmono enclaveFile.tableRequests_valid phase.enclaveTables.meaning hl)))
  have hle : (phase.b 1).epmUsed ≤ (phase.b 3).epmUsed :=
    (hused phase.enclaveTables.meaning).trans (hused phase.enclavePages.meaning)
  -- it lies below both boundaries
  have hpagesEpm := hb.epm.below_top
  have htopUtm := hb.below_top
  have hstart := utmStart_toNat (show epmMem.toNat + 4095 < 2 ^ 64 by omega)
  have hstartUtm := utmStart_toNat (show utmMem.toNat + 4095 < 2 ^ 64 by omega)
  have hsize := hwhole.size_aligned
  have hfits := ((epmLayout_fits hb.epm s.utmFreeList _).mp phase.enclavePages.repr.fits).1
  have hrejected : ∀ st, validateLeaf t.mem
      (initRegions params utmMem (prepared runtimeFile enclaveFile params enclp) phase.pointers
        (phase.t 4).epmFreeList t.rootPageTable) (lf.pte (initLayout hb)) (pageVa v) st = none := by
    intro st
    refine validateLeaf_below ?_ ?_ t.mem hfr (hran.repr.wf.leaf_flags hlast) hk hle ?_ ?_ ?_ ?_ ?_
      (pageVa v) st
    · rw [initLayout_utmFrame, initLayout_utmPages]
      omega
    · rw [initLayout_epmFrame, initLayout_epmPages]
      omega
    · rw [initLayout_epmPages]
      exact hfits
    · rw [initLayout_utmBase, initRegions]
    · rw [initLayout_utmPages, initRegions]
      dsimp only
      omega
    · rw [initLayout_epmFrame, initRegions]
      exact phase.runtimePages.repr.epmFree
    · rw [initLayout_epmFrame, initRegions]
      exact phase.enclavePages.repr.epmFree
  have hverdict : exec (validateAndHashEnclave (prepared runtimeFile enclaveFile params enclp).params
      (initRegions params utmMem (prepared runtimeFile enclaveFile params enclp) phase.pointers
        (phase.t 4).epmFreeList t.rootPageTable)) t = (.ok .keystoneError, t) := by
    rw [exec_validateAndHashEnclave,
      if_pos (validateTable_of_rejected hran.repr hlast hrejected _)]
  -- the hash is untouched up to the measurement
  have hhash : t.hash = s.hash := by
    have h₁ := runAll_hash (untrustedRequests params.untrusted params.untrustedSize)
      (exec (obtainUtm utmMem params.untrustedSize) (phase.t 4)).2
    have h₂ := runAll_hash (epmRequests runtimeFile enclaveFile)
      (preparedState params epmMem (minPages runtimeFile enclaveFile params) s)
    rw [hran.run, exec_obtainUtm] at h₁
    rw [phase.run] at h₂
    dsimp only at h₁ h₂
    rw [h₁, h₂, preparedState_hash]
  rw [phase.exec_init rfl, hran.exec_then, initMeasure, exec_bind_ok (exec_get t)]
  dsimp only
  rw [exec_bind_ok hverdict, exec_pure]
  exact ⟨⟨_, _, rfl⟩, hhash⟩

end Measured

theorem smallParams_need :
    epmNeed smallRuntime alignedElf (smallParams.untrusted, smallParams.untrustedSize) ≤
      (minPages smallRuntime alignedElf smallParams).toNat := by
  rw [smallParams_minPages]
  show epmNeed smallRuntime alignedElf (0x80000000#64, 0x2000#64) ≤ 274
  rw [smallLoad_need]
  decide

theorem init_never_measures_small :
    (∃ enclp' regions,
      (exec (init (some smallRuntime) (some alignedElf) smallParams 0x1000010#64 0x2000010#64
        smallEnclp 0#64) smallState).1 =
          .ok ⟨.keystoneSuccess, some (enclp', regions, .keystoneError)⟩) ∧
      (exec (init (some smallRuntime) (some alignedElf) smallParams 0x1000010#64 0x2000010#64
        smallEnclp 0#64) smallState).2.hash = smallState.hash :=
  init_never_measures smallRuntime_loadable alignedElf_loadable smallParams_wholePages smallBlocks
    smallParams_need ⟨133955584, by decide +kernel⟩ smallEnclp 0#64 smallState

end KeystoneSdk
