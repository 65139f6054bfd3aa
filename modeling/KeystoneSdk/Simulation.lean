/-
The loader's calls refine their abstract meaning.

* `exec_eptWalkInternal` — the walk, in a represented address space;
* `exec_epmVaToPa` — what `epm_va_to_pa` finds there;
* `walk_simulates`, `allocPage_simulates` — a call leads to a state that
  represents its abstract meaning as long as that fits into the buffers, and
  takes the page right behind a buffer otherwise (`Overrun`);
* `requests_simulate` — hence so does every sequence of calls.
-/
import KeystoneSdk.Refinement

open ByteMemory StopM

namespace KeystoneSdk

/-! ### The logs -/

/-- The logs of popped pages only get longer. -/
def LogsGrow (s s' : Keystone) : Prop :=
  s.epmPages <+: s'.epmPages ∧ s.utmPages <+: s'.utmPages

theorem LogsGrow.refl (s : Keystone) : LogsGrow s s := ⟨List.prefix_rfl, List.prefix_rfl⟩

theorem LogsGrow.trans (s₁ s₂ s₃ : Keystone) (h : LogsGrow s₁ s₂) (h' : LogsGrow s₂ s₃) :
    LogsGrow s₁ s₃ := ⟨h.1.trans h'.1, h.2.trans h'.2⟩

theorem logsGrow_popPage (s : Keystone) (l : FreeList) : LogsGrow s (s.popPage l) := by
  cases l <;> simp [LogsGrow, Keystone.popPage]

theorem Overrun.mono {L : Layout} {s s' : Keystone} (h : Overrun L s) (hg : LogsGrow s s') :
    Overrun L s' := by
  rcases h with h | h
  · exact Or.inl (hg.1.subset h)
  · exact Or.inr (hg.2.subset h)

theorem grows_readPte (pte : Addr) : Grows LogsGrow (readPte pte) := LogsGrow.refl

theorem grows_writePte (pte : Addr) (v : Pte) : Grows LogsGrow (writePte pte v) := LogsGrow.refl

theorem grows_eptWalkLoop (va : Vaddr) {missing : Addr → Loader (Option Addr)}
    (hm : ∀ pte, Grows LogsGrow (missing pte)) (i : ℕ) (t : Addr) :
    Grows LogsGrow (eptWalkLoop va missing i t) := by
  induction i generalizing t with
  | zero => exact grows_pure LogsGrow.refl _
  | succ i ih =>
    rw [eptWalkLoop]
    refine (grows_readPte _).bind LogsGrow.trans fun v => ?_
    split
    · exact hm _
    · exact ih _

theorem grows_eptWalkInternal (n : ℕ) (va : Vaddr) (create : Bool) :
    Grows LogsGrow (eptWalkInternal n va create) := by
  induction n generalizing create with
  | zero => exact grows_throw LogsGrow.refl _
  | succ n ih =>
    rw [eptWalkInternal]
    refine (grows_get LogsGrow.refl).bind LogsGrow.trans fun s => ?_
    refine grows_eptWalkLoop va (fun pte => ?_) _ _
    cases create with
    | false => exact grows_pure LogsGrow.refl _
    | true =>
      refine (grows_get LogsGrow.refl).bind LogsGrow.trans fun s => ?_
      refine (grows_writePte _ _).bind LogsGrow.trans fun _ => ?_
      exact (grows_modify fun s => logsGrow_popPage s .epm).bind LogsGrow.trans fun _ => ih true

theorem grows_eptWalkCreate (va : Vaddr) : Grows LogsGrow (eptWalkCreate va) :=
  grows_eptWalkInternal 3 va true

/-- The end of `allocPage`: a mode that maps data copies it into the page. -/
def copyInto (src : HostPtr) (mode : BitVec 32) (page : Addr) : Loader KeystoneStatus := do
  if modeWrites mode then
    writeMem src page
  return .keystoneSuccess

/-- `allocPage` after its walk. -/
def allocAt (l : FreeList) (src : HostPtr) (mode : BitVec 32) :
    Option Addr → Loader KeystoneStatus
  | none => throw .segfault
  | some pte => do
    if (← readPte pte) &&& pteV ≠ 0#64 then
      return .keystoneSuccess
    else
      let pageAddr := (← get).freeList l >>> pageBits
      modify fun s => s.popPage l
      match modeFlags mode with
      | none => return .keystoneError
      | some flags =>
        writePte pte (pteCreate pageAddr flags)
        copyInto src mode (pageAddr <<< pageBits)

theorem allocPage_eq (va : Vaddr) (l : FreeList) (src : HostPtr) (mode : BitVec 32) :
    allocPage va l src mode = eptWalkCreate va >>= allocAt l src mode := by
  rw [allocPage]
  congr 1

theorem grows_copyInto (src : HostPtr) (mode : BitVec 32) (page : Addr) :
    Grows LogsGrow (copyInto src mode page) := by
  rw [copyInto]
  split
  · refine Grows.bind LogsGrow.trans ?_ fun _ => grows_pure LogsGrow.refl _
    rw [writeMem]
    split
    · exact grows_modify LogsGrow.refl
    · exact grows_throw LogsGrow.refl _
  · exact grows_pure LogsGrow.refl _

theorem grows_allocAt (l : FreeList) (src : HostPtr) (mode : BitVec 32) (r : Option Addr) :
    Grows LogsGrow (allocAt l src mode r) := by
  cases r with
  | none => exact grows_throw LogsGrow.refl _
  | some pte =>
    refine (grows_readPte pte).bind LogsGrow.trans fun v => ?_
    split
    · exact grows_pure LogsGrow.refl _
    · refine (grows_get LogsGrow.refl).bind LogsGrow.trans fun s => ?_
      refine (grows_modify fun s => logsGrow_popPage s l).bind LogsGrow.trans fun _ => ?_
      cases modeFlags mode with
      | none => exact grows_pure LogsGrow.refl _
      | some flags =>
        exact (grows_writePte _ _).bind LogsGrow.trans fun _ => grows_copyInto src mode _

theorem grows_allocPage (va : Vaddr) (l : FreeList) (src : HostPtr) (mode : BitVec 32) :
    Grows LogsGrow (allocPage va l src mode) := by
  rw [allocPage_eq]
  exact (grows_eptWalkCreate va).bind LogsGrow.trans (grows_allocAt l src mode)

theorem Request.grows (r : Request) : Grows LogsGrow r.run := by
  cases r with
  | walk va => exact (grows_eptWalkCreate va).bind LogsGrow.trans fun _ => grows_pure LogsGrow.refl _
  | alloc va l src mode =>
    exact (grows_allocPage va l src mode).bind LogsGrow.trans fun _ => grows_pure LogsGrow.refl _
  | stop reason => exact grows_throw LogsGrow.refl _

/-! ### The walk -/

section Walk

variable {L : Layout} {s : Keystone} {a : AddressSpace}

theorem exec_eptWalkLoop_zero (va : Vaddr) (missing : Addr → Loader (Option Addr)) (p : ℕ) :
    exec (eptWalkLoop va missing 0 (frameAddr p 0)) s =
      (.ok (some (frameAddr p (8 * (vpn va % 512)))), s) := by
  rw [eptWalkLoop, exec_pure, ptIdx_eq_vpn va (by decide), frameAddr_index, pow_zero, Nat.div_one]

theorem exec_eptWalkLoop_succ (va : Vaddr) (missing : Addr → Loader (Option Addr)) (i : ℕ)
    (t : Addr) :
    exec (eptWalkLoop va missing (i + 1) t) s =
      if readLE64 s.mem (t + 8#64 * ptIdx va (i + 1)) &&& pteV = 0#64 then
        exec (missing (t + 8#64 * ptIdx va (i + 1))) s
      else
        exec (eptWalkLoop va missing i
          (ptePpn (readLE64 s.mem (t + 8#64 * ptIdx va (i + 1))) <<< riscvPgshift)) s := by
  rw [eptWalkLoop, exec_bind]
  show exec (if _ then _ else _) s = _
  split <;> rfl

/-- One level of the walk in a represented address space. -/
theorem exec_eptWalkLoop_dir (hr : Repr L s a) (va : Vaddr)
    (missing : Addr → Loader (Option Addr)) {h k : ℕ} (hh : h < 2)
    (hk : a.tab (h + 1) (vpn va / 512 ^ (h + 2)) = some k) :
    exec (eptWalkLoop va missing (h + 1) (frameAddr (L.epmFrame + k) 0)) s =
      match a.tab h (vpn va / 512 ^ (h + 1)) with
      | none =>
        exec (missing (frameAddr (L.epmFrame + k) (8 * (vpn va / 512 ^ (h + 1) % 512)))) s
      | some k' => exec (eptWalkLoop va missing h (frameAddr (L.epmFrame + k') 0)) s := by
  have hmod : vpn va / 512 ^ (h + 1) % 512 < 512 := Nat.mod_lt _ (by decide)
  have hread := hr.entries hk hmod
  rw [show 512 * (vpn va / 512 ^ (h + 2)) + vpn va / 512 ^ (h + 1) % 512
    = vpn va / 512 ^ (h + 1) by rw [pow_succ 512 (h + 1), ← Nat.div_div_eq_div_mul]; omega] at hread
  rw [exec_eptWalkLoop_succ, ptIdx_eq_vpn va (by omega), frameAddr_index, hread]
  rcases hk' : a.tab h (vpn va / 512 ^ (h + 1)) with _ | k'
  · rw [AddressSpace.entry_tab_none hk', if_pos BitVec.zero_and]
  · rw [AddressSpace.entry_tab_some hk', ptdCreate, if_neg (pteCreate_valid _ _),
      ptePpn_shiftLeft (hr.tab_number_lt hk') (by decide)]

theorem exec_eptWalkInternal_succ (n : ℕ) (va : Vaddr) (create : Bool) :
    exec (eptWalkInternal (n + 1) va create) s =
      exec (eptWalkLoop va
        (fun pte =>
          if create then eptContinueWalkCreate (eptWalkInternal n va true) pte
          else return none) 2 s.rootPageTable) s := by
  rw [eptWalkInternal, exec_bind, exec_get]
  rfl

theorem exec_eptContinueWalkCreate (m : Loader (Option Addr)) (pte : Addr) :
    exec (eptContinueWalkCreate m pte) s = exec m (s.createTable pte) := by
  rw [eptContinueWalkCreate, exec_bind, exec_get]
  rfl

/-- The walk from the root, in a represented address space. -/
theorem exec_eptWalkInternal (hr : Repr L s a) (n : ℕ) (va : Vaddr) (create : Bool) :
    exec (eptWalkInternal (n + 1) va create) s =
      match a.tab 1 (vpn va / 262144) with
      | none =>
        exec (if create then
          eptContinueWalkCreate (eptWalkInternal n va true)
            (frameAddr (L.epmFrame + 0) (8 * (vpn va / 262144 % 512)))
          else return none) s
      | some k₁ =>
        match a.tab 0 (vpn va / 512) with
        | none =>
          exec (if create then
            eptContinueWalkCreate (eptWalkInternal n va true)
              (frameAddr (L.epmFrame + k₁) (8 * (vpn va / 512 % 512)))
            else return none) s
        | some k₀ => (.ok (some (frameAddr (L.epmFrame + k₀) (8 * (vpn va % 512)))), s) := by
  have hroot : a.tab 2 (vpn va / 512 ^ 3) = some 0 := by
    rw [Nat.div_eq_of_lt (by have := vpn_lt va; norm_num; omega)]
    exact hr.wf.root
  -- two rounds of the loop, each of which stops where its table is missing
  rw [exec_eptWalkInternal_succ, hr.root, show L.epmFrame = L.epmFrame + 0 from rfl,
    exec_eptWalkLoop_dir hr va _ (by decide) hroot]
  norm_num
  rcases h₁ : a.tab 1 (vpn va / 262144) with _ | k₁
  · rfl
  · have h₁' : a.tab (0 + 1) (vpn va / 512 ^ (0 + 2)) = some k₁ := by
      norm_num
      exact h₁
    simp only
    rw [exec_eptWalkLoop_dir hr va _ (by decide) h₁']
    norm_num
    rcases h₀ : a.tab 0 (vpn va / 512) with _ | k₀
    · rfl
    · simp only
      rw [exec_eptWalkLoop_zero]

/-- A walk whose tables exist. -/
theorem exec_walk_of_tab (hr : Repr L s a) (n : ℕ) (va : Vaddr) (create : Bool) {k : ℕ}
    (hk : a.tab 0 (vpn va / 512) = some k) :
    exec (eptWalkInternal (n + 1) va create) s =
      (.ok (some (frameAddr (L.epmFrame + k) (8 * (vpn va % 512)))), s) := by
  obtain ⟨k₁, hk₁⟩ := hr.wf.tab_parent hk (by decide)
  rw [show vpn va / 512 / 512 = vpn va / 262144 by omega] at hk₁
  rw [exec_eptWalkInternal hr, hk₁, hk]

/-- The entry `epm_va_to_pa` reads. -/
theorem read_leaf (hr : Repr L s a) (v : ℕ) {k : ℕ} (hk : a.tab 0 (v / 512) = some k) :
    readLE64 s.mem (frameAddr (L.epmFrame + k) (8 * (v % 512))) = a.entry L 0 v := by
  rw [hr.entries hk (Nat.mod_lt _ (by decide))]
  congr 1
  omega

/-- The page a virtual page number is mapped to, or 0. -/
def AddressSpace.translate (L : Layout) (a : AddressSpace) (v : ℕ) : Paddr :=
  match a.leaf v with
  | none => 0#64
  | some lf => frameAddr (lf.frame.number L) 0

/-- A page whose table does not exist is not mapped. -/
theorem Repr.leaf_none_of_tab (hr : Repr L s a) {v : ℕ} (h : a.tab 0 (v / 512) = none) :
    a.leaf v = none := by
  rcases hl : a.leaf v with _ | lf
  · rfl
  · obtain ⟨k, hk⟩ := hr.wf.leaf_parent hl
    rw [h] at hk
    cases hk

/-- A walk that must not create, when a table is missing. -/
theorem exec_walk_none (hr : Repr L s a) (va : Vaddr) (h₀ : a.tab 0 (vpn va / 512) = none) :
    exec (eptWalkInternal 1 va false) s = (.ok none, s) := by
  rw [exec_eptWalkInternal hr]
  rcases a.tab 1 (vpn va / 262144) with _ | k₁
  · rfl
  · rw [h₀]
    rfl

/-- `epm_va_to_pa` in a represented address space. -/
theorem exec_epmVaToPa (hr : Repr L s a) (va : Vaddr) :
    exec (epmVaToPa va) s = (.ok (a.translate L (vpn va)), s) := by
  rw [epmVaToPa, exec_bind, eptWalk]
  rcases h₀ : a.tab 0 (vpn va / 512) with _ | k
  · rw [exec_walk_none hr va h₀, AddressSpace.translate, hr.leaf_none_of_tab h₀]
    rfl
  · rw [exec_walk_of_tab hr 0 va false h₀]
    show (Except.ok (ptePpn (readLE64 s.mem _) <<< riscvPgshift), s) = _
    rw [read_leaf hr _ h₀, AddressSpace.translate]
    rcases hl : a.leaf (vpn va) with _ | lf
    · rw [AddressSpace.entry_leaf_none hl]
      rfl
    · rw [AddressSpace.entry_leaf_some hl, Leaf.pte,
        ptePpn_shiftLeft (hr.leaf_inside hl).number_lt (hr.wf.leaf_flags hl)]

/-! ### Reading through the page table -/

/-- The valid leaf entry the page table has for an address. -/
def Keystone.pteAt (s : Keystone) (va : Vaddr) : Option Pte :=
  match (exec (eptWalk va) s).1 with
  | .ok (some pte) =>
    if readLE64 s.mem pte &&& pteV = 0#64 then none else some (readLE64 s.mem pte)
  | _ => none

/-- The byte at an address, read through the page table. -/
def Keystone.byteAt (s : Keystone) (va : Vaddr) : Option Byte :=
  (s.pteAt va).map fun pte => s.mem (ptePhys pte + BitVec.ofNat 64 (va.toNat % 4096))

theorem pteAt_eq (hr : Repr L s a) (va : Vaddr) :
    s.pteAt va = (a.leaf (vpn va)).map (Leaf.pte L) := by
  rw [Keystone.pteAt, eptWalk]
  rcases h₀ : a.tab 0 (vpn va / 512) with _ | k
  · have hwalk : exec (eptWalkInternal 1 va false) s = (.ok none, s) := exec_walk_none hr va h₀
    rw [hwalk, hr.leaf_none_of_tab h₀]
    rfl
  · rw [exec_walk_of_tab hr 0 va false h₀]
    simp only [read_leaf hr _ h₀]
    rcases hl : a.leaf (vpn va) with _ | lf
    · rw [AddressSpace.entry_leaf_none hl, if_pos BitVec.zero_and]
      rfl
    · rw [AddressSpace.entry_leaf_some hl, Leaf.pte, if_neg (pteCreate_valid _ _)]
      rfl

theorem byteAt_eq (hr : Repr L s a) (va : Vaddr) :
    s.byteAt va = (a.leaf (vpn va)).map fun lf => lf.bytes (va.toNat % 4096) := by
  rw [Keystone.byteAt, pteAt_eq hr]
  rcases hl : a.leaf (vpn va) with _ | lf
  · rfl
  · have hphys : ptePhys (lf.pte L) = frameAddr (lf.frame.number L) 0 :=
      ptePpn_shiftLeft (hr.leaf_inside hl).number_lt (hr.wf.leaf_flags hl)
    show some (s.mem (ptePhys (lf.pte L) + _)) = some _
    rw [hphys, frameAddr_add, Nat.zero_add, hr.bytes hl (Nat.mod_lt _ (by decide))]

/-! ### The creating walk -/

/-- Creating a table when the EPM is used up takes the page behind it. -/
theorem overrun_createTable (hr : Repr L s a) (hfull : ¬ a.epmUsed < L.epmPages) (pte : Addr) :
    Overrun L (s.createTable pte) := by
  refine Or.inl ?_
  have he : a.epmUsed = L.epmPages := by
    have := hr.fits.1
    omega
  show _ ∈ s.epmPages ++ [s.epmFreeList]
  rw [hr.epmFree, he]
  exact List.mem_append_right _ (List.mem_singleton.mpr rfl)

/-- `m` creates the table at height `h` with prefix `q` and goes on with `m'`. -/
structure Creates (L : Layout) (s : Keystone) (a : AddressSpace) (h q : ℕ)
    (m m' : Loader (Option Addr)) : Prop where
  good : a.epmUsed < L.epmPages →
    ∃ s', exec m s = exec m' s' ∧ Repr L s' (a.addTable h q)
  bad : ¬ a.epmUsed < L.epmPages → Overrun L (exec m s).2

theorem creates_continue (hr : Repr L s a) (n : ℕ) (va : Vaddr) {h k : ℕ} (hh : h < 2)
    (hnone : a.tab h (vpn va / 512 ^ (h + 1)) = none)
    (hk : a.tab (h + 1) (vpn va / 512 ^ (h + 2)) = some k)
    {m : Loader (Option Addr)}
    (hm : exec m s = exec (eptContinueWalkCreate (eptWalkInternal n va true)
      (frameAddr (L.epmFrame + k) (8 * (vpn va / 512 ^ (h + 1) % 512)))) s) :
    Creates L s a h (vpn va / 512 ^ (h + 1)) m (eptWalkInternal n va true) := by
  have hdiv : vpn va / 512 ^ (h + 1) / 512 = vpn va / 512 ^ (h + 2) := by
    rw [Nat.div_div_eq_div_mul, ← pow_succ]
  have hq : vpn va / 512 ^ (h + 1) < 512 ^ (2 - h) := by
    rw [Nat.div_lt_iff_lt_mul (by positivity), ← pow_add, show 2 - h + (h + 1) = 3 by omega]
    exact vpn_lt va
  -- the new table takes the next page, or the one behind the buffer
  refine ⟨fun hfit => ?_, fun hfull => ?_⟩
  · refine ⟨_, hm.trans (exec_eptContinueWalkCreate _ _), ?_⟩
    rw [← hdiv] at hk
    exact hr.createTable hh hq hnone hk hfit
  · rw [hm, exec_eptContinueWalkCreate]
    exact (overrun_createTable hr hfull _).mono (grows_eptWalkInternal n va true _)

/-- A walk that misses the lower directory. -/
theorem creates_middle (hr : Repr L s a) (n : ℕ) (va : Vaddr)
    (h₁ : a.tab 1 (vpn va / 262144) = none) :
    Creates L s a 1 (vpn va / 262144) (eptWalkInternal (n + 1) va true)
      (eptWalkInternal n va true) := by
  have hroot : a.tab (1 + 1) (vpn va / 512 ^ (1 + 2)) = some 0 := by
    rw [Nat.div_eq_of_lt (lt_of_lt_of_eq (vpn_lt va) (by norm_num))]
    exact hr.wf.root
  refine creates_continue hr n va (by decide) h₁ hroot ?_
  rw [exec_eptWalkInternal hr, h₁]
  rfl

/-- A walk that misses the table of leaves. -/
theorem creates_leafTable (hr : Repr L s a) (n : ℕ) (va : Vaddr) {k : ℕ}
    (h₁ : a.tab 1 (vpn va / 262144) = some k) (h₀ : a.tab 0 (vpn va / 512) = none) :
    Creates L s a 0 (vpn va / 512) (eptWalkInternal (n + 1) va true)
      (eptWalkInternal n va true) := by
  have h₀' : a.tab 0 (vpn va / 512 ^ (0 + 1)) = none := h₀
  have hc := creates_continue hr n va (by decide) h₀' h₁ (m := eptWalkInternal (n + 1) va true)
  refine hc ?_
  rw [exec_eptWalkInternal hr, h₁, h₀]
  rfl

/-- What a run of a creating walk does. -/
structure Walks (L : Layout) (s : Keystone) (b : AddressSpace) (va : Vaddr)
    (m : Loader (Option Addr)) : Prop where
  good : b.Fits L → ∃ k s', b.tab 0 (vpn va / 512) = some k ∧
    exec m s = (.ok (some (frameAddr (L.epmFrame + k) (8 * (vpn va % 512)))), s') ∧ Repr L s' b
  bad : ¬ b.Fits L → Overrun L (exec m s).2

theorem Creates.walks {h q : ℕ} {m m' : Loader (Option Addr)}
    (hc : Creates L s a h q m m') {b : AddressSpace} {va : Vaddr}
    (hle : (a.addTable h q).epmUsed ≤ b.epmUsed)
    (hw : ∀ s', Repr L s' (a.addTable h q) → Walks L s' b va m') : Walks L s b va m := by
  refine ⟨fun hfit => ?_, fun hfit => ?_⟩
  · obtain ⟨s₁, he, hr₁⟩ := hc.good (lt_of_lt_of_le hle hfit.1)
    rw [he]
    exact (hw s₁ hr₁).good hfit
  · by_cases hfull : a.epmUsed < L.epmPages
    · obtain ⟨s₁, he, hr₁⟩ := hc.good hfull
      rw [he]
      exact (hw s₁ hr₁).bad hfit
    · exact hc.bad hfull

theorem walks_of_tab (hr : Repr L s a) (n : ℕ) (va : Vaddr) {k : ℕ}
    (hk : a.tab 0 (vpn va / 512) = some k) : Walks L s a va (eptWalkInternal (n + 1) va true) where
  good := fun _ => ⟨k, s, hk, exec_walk_of_tab hr n va true hk, hr⟩
  bad := fun hfit => absurd hr.fits hfit

theorem walks_below (hr : Repr L s a) (n : ℕ) (va : Vaddr) {k : ℕ}
    (h₁ : a.tab 1 (vpn va / 262144) = some k) :
    Walks L s (a.ensureTable 0 (vpn va / 512)) va (eptWalkInternal (n + 2) va true) := by
  rcases h₀ : a.tab 0 (vpn va / 512) with _ | k₀
  · rw [AddressSpace.ensureTable_of_none h₀]
    exact (creates_leafTable hr (n + 1) va h₁ h₀).walks (le_refl _) fun s' hr' =>
      walks_of_tab hr' n va AddressSpace.addTable_tab_self
  · rw [AddressSpace.ensureTable_of_some h₀]
    exact walks_of_tab hr (n + 1) va h₀

/-- **`__ept_walk_create`** leaves behind what `touch` says: three starts of
the walk are enough for two missing tables. -/
theorem eptWalkCreate_walks (hr : Repr L s a) (va : Vaddr) :
    Walks L s (a.touch (vpn va)) va (eptWalkCreate va) := by
  rw [AddressSpace.touch, eptWalkCreate]
  rcases h₁ : a.tab 1 (vpn va / 262144) with _ | k₁
  · rw [AddressSpace.ensureTable_of_none h₁]
    exact (creates_middle hr 2 va h₁).walks (AddressSpace.epmUsed_le_ensureTable _ _)
      fun s' hr' => walks_below hr' 0 va AddressSpace.addTable_tab_self
  · rw [AddressSpace.ensureTable_of_some h₁]
    exact walks_below hr 1 va h₁

end Walk

/-! ### Page allocation -/

/-- `allocAt` at an entry that is already valid. -/
theorem exec_allocAt_mapped {s : Keystone} {pte : Addr} (l : FreeList) (src : HostPtr)
    (mode : BitVec 32) (h : readLE64 s.mem pte &&& pteV ≠ 0#64) :
    exec (allocAt l src mode (some pte)) s = (.ok .keystoneSuccess, s) := by
  rw [allocAt, exec_bind]
  show exec (if readLE64 s.mem pte &&& pteV ≠ 0#64 then _ else _) s = _
  rw [if_pos h]
  rfl

/-- `allocAt` at an empty entry. -/
theorem exec_allocAt_empty {s : Keystone} {pte : Addr} (l : FreeList) (src : HostPtr)
    {mode : BitVec 32} {flags : BitVec 64} (h : readLE64 s.mem pte &&& pteV = 0#64)
    (hf : modeFlags mode = some flags) :
    exec (allocAt l src mode (some pte)) s =
      exec (copyInto src mode (s.freeList l >>> pageBits <<< pageBits))
        (s.mapPage l pte flags) := by
  rw [allocAt, exec_bind]
  show exec (if readLE64 s.mem pte &&& pteV ≠ 0#64 then _ else _) s = _
  rw [if_neg (not_not.mpr h), exec_bind, exec_get]
  simp only [hf, exec_bind, exec_modify, writePte, Keystone.mapPage, copyInto,
    Keystone.popPage_mem]

namespace AddressSpace

/-- Map `v` to a new page unless it is mapped, once its tables exist. -/
def place (b : AddressSpace) (v : ℕ) (l : FreeList) (src : HostPtr) (mode : BitVec 32)
    (flags : BitVec 64) : Except Stop Unit × AddressSpace :=
  if (b.leaf v).isSome then (.ok ⟨⟩, b)
  else if modeWrites mode then
    if src.readable 4096 then (.ok ⟨⟩, (b.addLeaf v l flags).fill v src.bytes)
    else (.error .segfault, b.addLeaf v l flags)
  else (.ok ⟨⟩, b.addLeaf v l flags)

variable {b : AddressSpace} {v : ℕ} {l : FreeList} {src : HostPtr} {mode : BitVec 32}
  {flags : BitVec 64}

theorem place_mapped {lf : Leaf} (h : b.leaf v = some lf) :
    b.place v l src mode flags = (.ok ⟨⟩, b) := by
  rw [place, h, if_pos (by simp)]

theorem place_new (h : b.leaf v = none) :
    b.place v l src mode flags =
      if modeWrites mode then
        if src.readable 4096 then (.ok ⟨⟩, (b.addLeaf v l flags).fill v src.bytes)
        else (.error .segfault, b.addLeaf v l flags)
      else (.ok ⟨⟩, b.addLeaf v l flags) := by
  rw [place, h, if_neg (by simp)]

/-- The frames in use after `place`. -/
theorem place_used : (b.place v l src mode flags).2.epmUsed =
      (if (b.leaf v).isSome then b else b.addLeaf v l flags).epmUsed ∧
    (b.place v l src mode flags).2.utmUsed =
      (if (b.leaf v).isSome then b else b.addLeaf v l flags).utmUsed := by
  rcases h : b.leaf v with _ | lf
  · have hif : (if (none : Option Leaf).isSome then b else b.addLeaf v l flags) =
        b.addLeaf v l flags := if_neg (by simp)
    rw [hif, place_new h]
    split
    · split <;> exact ⟨rfl, rfl⟩
    · exact ⟨rfl, rfl⟩
  · rw [place_mapped h]
    exact ⟨rfl, rfl⟩

theorem le_place_used : b.epmUsed ≤ (b.place v l src mode flags).2.epmUsed ∧
    b.utmUsed ≤ (b.place v l src mode flags).2.utmUsed := by
  rw [place_used.1, place_used.2]
  split
  · exact ⟨le_refl _, le_refl _⟩
  · cases l <;> simp [addLeaf]

theorem place_fits_new {L : Layout} (h : b.leaf v = none) :
    (b.place v l src mode flags).2.Fits L ↔ (b.addLeaf v l flags).Fits L := by
  rw [Fits, place_used.1, place_used.2, h, if_neg (by simp)]
  rfl

end AddressSpace

/-- The abstract meaning of `allocPage`: a walk, and a page. -/
theorem exec_apply_alloc (a : AddressSpace) (va : Vaddr) (l : FreeList) (src : HostPtr)
    {mode : BitVec 32} {flags : BitVec 64} (hf : modeFlags mode = some flags) :
    exec (Request.alloc va l src mode).apply a =
      (a.touch (vpn va)).place (vpn va) l src mode flags := by
  rw [Request.apply, exec_bind, exec_modify, AddressSpace.place]
  simp only [exec_bind, exec_get, AddressSpace.touch_leaf, hf]
  rcases hl : a.leaf (vpn va) with _ | lf
  · cases modeWrites mode
    · rfl
    · cases hs : src.readable 4096 <;> rfl
  · rfl

section Alloc

variable {L : Layout} {s : Keystone} {a : AddressSpace}

/-- Mapping a page when its buffer is used up takes the page behind it. -/
theorem overrun_mapPage (hr : Repr L s a) {v : ℕ} {l : FreeList} {flags : BitVec 64}
    (hfull : ¬ (a.addLeaf v l flags).Fits L) (pte : Addr) (flags' : BitVec 64) :
    Overrun L (s.mapPage l pte flags') := by
  obtain ⟨h1, h2⟩ := hr.fits
  cases l with
  | epm =>
    have he : a.epmUsed = L.epmPages := by
      by_contra hne
      exact hfull ⟨by show a.epmUsed + 1 ≤ _; omega, h2⟩
    refine Or.inl ?_
    rw [Keystone.mapPage_epmPages, if_pos rfl, hr.epmFree, he]
    exact List.mem_append_right _ (List.mem_singleton.mpr rfl)
  | utm =>
    have hu : a.utmUsed = L.utmPages := by
      by_contra hne
      exact hfull ⟨h1, by show a.utmUsed + 1 ≤ _; omega⟩
    refine Or.inr ?_
    rw [Keystone.mapPage_utmPages, if_pos rfl, hr.utmFree, hu]
    exact List.mem_append_right _ (List.mem_singleton.mpr rfl)

theorem frame_shift_roundtrip {p : ℕ} (hp : p < 2 ^ 52) :
    frameAddr p 0 >>> pageBits <<< pageBits = frameAddr p 0 := by
  have h := ofNat_shiftLeft_pgshift p
  rw [← ppn_frameAddr hp (show 0 < 4096 by decide)] at h
  exact h

/-- `allocPage` behind its walk, as long as the new page fits. -/
theorem allocAt_good (hr : Repr L s a) {v k : ℕ} (hv : v < 134217728)
    (hk : a.tab 0 (v / 512) = some k) (l : FreeList) (src : HostPtr) {mode : BitVec 32}
    {flags : BitVec 64} (hf : modeFlags mode = some flags)
    (hfit : (a.place v l src mode flags).2.Fits L) :
    ∃ s', exec (allocAt l src mode (some (frameAddr (L.epmFrame + k) (8 * (v % 512))))) s =
        ((a.place v l src mode flags).1.map fun _ => .keystoneSuccess, s') ∧
      Repr L s' (a.place v l src mode flags).2 := by
  have hread := read_leaf hr v hk
  rcases hl : a.leaf v with _ | lf
  · -- the page is new
    rw [AddressSpace.place_fits_new hl] at hfit
    rw [AddressSpace.entry_leaf_none hl] at hread
    have hr' := hr.mapPage hv hk hl l (modeFlags_lt hf) hfit
    have hin : (a.next l).Inside L := Repr.next_inside hfit
    rw [exec_allocAt_empty l src (by rw [hread, BitVec.zero_and]) hf, hr.freeList_eq hin,
      frame_shift_roundtrip hin.number_lt, AddressSpace.place_new hl, copyInto]
    cases modeWrites mode with
    | false => exact ⟨_, rfl, hr'⟩
    | true =>
      rw [writeMem]
      cases src.readable 4096 with
      | false => exact ⟨_, rfl, hr'⟩
      | true =>
        exact ⟨_, rfl, hr'.writePage (AddressSpace.addLeaf_leaf_self l flags) src.bytes⟩
  · -- the page is mapped already
    rw [AddressSpace.entry_leaf_some hl] at hread
    rw [exec_allocAt_mapped l src mode (by rw [hread]; exact pteCreate_valid _ _),
      AddressSpace.place_mapped hl]
    exact ⟨s, rfl, hr⟩

/-- `allocPage` behind its walk, when the new page does not fit. -/
theorem allocAt_bad (hr : Repr L s a) {v k : ℕ} (hk : a.tab 0 (v / 512) = some k)
    (l : FreeList) (src : HostPtr) {mode : BitVec 32} {flags : BitVec 64}
    (hf : modeFlags mode = some flags) (hfit : ¬ (a.place v l src mode flags).2.Fits L) :
    Overrun L
      (exec (allocAt l src mode (some (frameAddr (L.epmFrame + k) (8 * (v % 512))))) s).2 := by
  have hread := read_leaf hr v hk
  -- a page that is mapped already takes no new one
  rcases hl : a.leaf v with _ | lf
  · rw [AddressSpace.place_fits_new hl] at hfit
    rw [AddressSpace.entry_leaf_none hl] at hread
    rw [exec_allocAt_empty l src (by rw [hread, BitVec.zero_and]) hf]
    exact (overrun_mapPage hr hfit _ flags).mono (grows_copyInto src mode _ _)
  · rw [AddressSpace.place_mapped hl] at hfit
    exact absurd hr.fits hfit

/-- **`allocPage`** simulates its abstract meaning. -/
theorem alloc_simulates (L : Layout) (va : Vaddr) (l : FreeList) (src : HostPtr)
    {mode : BitVec 32} (hmode : (modeFlags mode).isSome) :
    Simulates (Repr L) (AddressSpace.Fits L) (Overrun L) (Request.alloc va l src mode).run
      (Request.alloc va l src mode).apply := by
  obtain ⟨flags, hf⟩ := Option.isSome_iff_exists.mp hmode
  have hrun : (Request.alloc va l src mode).run =
      eptWalkCreate va >>= fun r => allocAt l src mode r >>= fun _ => pure ⟨⟩ := by
    rw [Request.run, allocPage_eq, bind_assoc]
  have hgrow : ∀ r, Grows LogsGrow (allocAt l src mode r >>= fun _ => (pure ⟨⟩ : Loader PUnit)) :=
    fun r => (grows_allocAt l src mode r).bind LogsGrow.trans fun _ => grows_pure LogsGrow.refl _
  -- placing a page only adds to what the walk has used
  have htouch : ∀ a, ((a : AddressSpace).touch (vpn va)).Fits L ∨
      ¬ (exec (Request.alloc va l src mode).apply a).2.Fits L := by
    intro a
    rw [exec_apply_alloc a va l src hf]
    by_cases hfit : ((a.touch (vpn va)).place (vpn va) l src mode flags).2.Fits L
    · exact Or.inl ⟨le_trans AddressSpace.le_place_used.1 hfit.1,
        le_trans AddressSpace.le_place_used.2 hfit.2⟩
    · exact Or.inr hfit
  refine ⟨fun s a hr hfit => ?_, fun s a hr hfit => ?_, fun a hfit => ?_,
    fun s hs => hs.mono (Request.grows _ s)⟩
  · -- the walk fits, and the page behind it
    have hfit' := (htouch a).resolve_right (not_not.mpr hfit)
    obtain ⟨k, s₁, hk, he, hr₁⟩ := (eptWalkCreate_walks hr va).good hfit'
    rw [exec_apply_alloc a va l src hf] at hfit ⊢
    obtain ⟨s₂, he₂, hr₂⟩ := allocAt_good hr₁ (vpn_lt va) hk l src hf hfit
    rw [hrun, exec_bind_ok he, exec_bind, he₂]
    rcases hp : (a.touch (vpn va)).place (vpn va) l src mode flags with ⟨r, b⟩
    rw [hp] at hr₂
    cases r <;> exact ⟨rfl, hr₂⟩
  · -- the walk runs out, or the page behind it does
    rw [hrun]
    by_cases hfit' : (a.touch (vpn va)).Fits L
    · obtain ⟨k, s₁, hk, he, hr₁⟩ := (eptWalkCreate_walks hr va).good hfit'
      rw [exec_apply_alloc a va l src hf] at hfit
      rw [exec_bind_ok he]
      exact (allocAt_bad hr₁ hk l src hf hfit).mono
        (Grows.after LogsGrow.refl _ (fun _ => grows_pure LogsGrow.refl _) s₁)
    · exact ((eptWalkCreate_walks hr va).bad hfit').mono (Grows.after LogsGrow.refl _ hgrow s)
  · obtain ⟨h1, h2⟩ := (htouch a).resolve_right (not_not.mpr hfit)
    exact ⟨le_trans (AddressSpace.epmUsed_le_touch _) h1, AddressSpace.touch_utmUsed _ ▸ h2⟩

/-- A walk simulates its abstract meaning. -/
theorem walk_simulates (L : Layout) (va : Vaddr) :
    Simulates (Repr L) (AddressSpace.Fits L) (Overrun L) (Request.walk va).run
      (Request.walk va).apply := by
  refine ⟨fun s a hr hfit => ?_, fun s a hr hfit => ?_, fun a hfit => ?_,
    fun s hs => hs.mono (Request.grows _ s)⟩
  · obtain ⟨k, s', hk, he, hr'⟩ := (eptWalkCreate_walks hr va).good hfit
    rw [Request.run, exec_bind_ok he]
    exact ⟨rfl, hr'⟩
  · exact ((eptWalkCreate_walks hr va).bad hfit).mono
      (Grows.after LogsGrow.refl _ (fun _ => grows_pure LogsGrow.refl _) s)
  · exact ⟨le_trans (AddressSpace.epmUsed_le_touch _) hfit.1,
      AddressSpace.touch_utmUsed (a := a) _ ▸ hfit.2⟩

end Alloc

/-! ### Sequences of requests -/

/-- Run a list of requests. -/
def runAll (rs : List Request) : Loader PUnit := forM rs Request.run

@[simp] theorem runAll_nil : runAll [] = pure ⟨⟩ := rfl

theorem runAll_cons (r : Request) (rs : List Request) :
    runAll (r :: rs) = r.run >>= fun _ => runAll rs := List.forM_cons

theorem runAll_append (rs rs' : List Request) :
    runAll (rs ++ rs') = runAll rs >>= fun _ => runAll rs' := forM_append rs rs'

/-- Not fitting is the same as having overrun, in a represented state. -/
theorem Repr.overrun_of_not_fits {L : Layout} (s : Keystone) (a : AddressSpace) (hr : Repr L s a)
    (h : ¬ a.Fits L) : Overrun L s := absurd hr.fits h

/-- **Every call of the loader refines its abstract meaning.** -/
theorem Request.simulates (L : Layout) {r : Request} (hv : r.Valid) :
    Simulates (Repr L) (AddressSpace.Fits L) (Overrun L) r.run r.apply := by
  cases r with
  | walk va => exact walk_simulates L va
  | alloc va l src mode => exact alloc_simulates L va l src hv
  | stop reason =>
    exact ⟨fun _ _ hr _ => ⟨rfl, hr⟩, fun s a hr hfit => hr.overrun_of_not_fits s a hfit,
      fun _ h => h, fun _ h => h⟩

/-- **Every sequence of calls refines its abstract meaning.** -/
theorem requests_simulate (L : Layout) (rs : List Request) (hv : ∀ r ∈ rs, r.Valid) :
    Simulates (Repr L) (AddressSpace.Fits L) (Overrun L) (runAll rs) (forM rs Request.apply) :=
  forM_simulates Repr.overrun_of_not_fits rs fun r hr => Request.simulates L (hv r hr)

/-! ### Staying inside the buffers -/

/-- The page lies in the EPM. -/
def Layout.InEpm (L : Layout) (p : Vaddr) : Prop :=
  4096 * L.epmFrame ≤ p.toNat ∧ p.toNat < 4096 * (L.epmFrame + L.epmPages)

/-- The page lies in the UTM. -/
def Layout.InUtm (L : Layout) (p : Vaddr) : Prop :=
  4096 * L.utmFrame ≤ p.toNat ∧ p.toNat < 4096 * (L.utmFrame + L.utmPages)

instance (L : Layout) (p : Vaddr) : Decidable (L.InEpm p) :=
  inferInstanceAs (Decidable
    (4096 * L.epmFrame ≤ p.toNat ∧ p.toNat < 4096 * (L.epmFrame + L.epmPages)))

instance (L : Layout) (p : Vaddr) : Decidable (L.InUtm p) :=
  inferInstanceAs (Decidable
    (4096 * L.utmFrame ≤ p.toNat ∧ p.toNat < 4096 * (L.utmFrame + L.utmPages)))

/-- Neither free list has left its buffer: every page taken so far lies in the
buffer it was taken for. -/
structure InBuffers (L : Layout) (s : Keystone) : Prop where
  epm : ∀ p ∈ s.epmPages, L.InEpm p
  utm : ∀ p ∈ s.utmPages, L.InUtm p

theorem inBuffers_of_pages {L : Layout} {s : Keystone} {epm utm : List Vaddr}
    (hepm : s.epmPages = epm) (hutm : s.utmPages = utm)
    (he : (epm.all fun p => decide (L.InEpm p)) = true)
    (hu : (utm.all fun p => decide (L.InUtm p)) = true) : InBuffers L s := by
  refine ⟨fun p hp => ?_, fun p hp => ?_⟩
  · exact of_decide_eq_true (List.all_eq_true.mp he p (hepm ▸ hp))
  · exact of_decide_eq_true (List.all_eq_true.mp hu p (hutm ▸ hp))

theorem not_in_frames {frame pages : ℕ} (hle : frame + pages ≤ 2 ^ 52) (hlt : pages < 2 ^ 52) :
    ¬ (4096 * frame ≤ (frameAddr (frame + pages) 0).toNat ∧
      (frameAddr (frame + pages) 0).toNat < 4096 * (frame + pages)) := by
  rw [frameAddr, BitVec.toNat_ofNat]
  omega

/-- The page behind a buffer is not in it. -/
theorem Overrun.not_inBuffers {L : Layout} {s : Keystone} (h : Overrun L s) :
    ¬ InBuffers L s := by
  intro hin
  rcases h with h | h
  · exact not_in_frames L.epm_le L.epmPages_lt (hin.epm _ h)
  · have hp := hin.utm _ h
    rcases Nat.eq_zero_or_pos L.utmPages with hz | hpos
    · obtain ⟨h1, h2⟩ := hp
      omega
    · rw [Layout.InUtm, Layout.utmPage_eq hpos] at hp
      exact not_in_frames L.utm_le L.utmPages_lt hp

theorem in_frames {frame pages k : ℕ} (hle : frame + pages ≤ 2 ^ 52) (hk : k < pages) :
    4096 * frame ≤ (frameAddr (frame + k) 0).toNat ∧
      (frameAddr (frame + k) 0).toNat < 4096 * (frame + pages) := by
  rw [frameAddr_toNat (by omega) (by decide)]
  omega

/-- A state that represents an address space has stayed inside its buffers. -/
theorem Repr.inBuffers {L : Layout} {s : Keystone} {a : AddressSpace} (hr : Repr L s a) :
    InBuffers L s := by
  refine ⟨fun p hp => ?_, fun p hp => ?_⟩
  · rw [hr.epmLog] at hp
    obtain ⟨k, hk, rfl⟩ := List.mem_map.mp hp
    exact in_frames L.epm_le (lt_of_lt_of_le (List.mem_range.mp hk) hr.fits.1)
  · rw [hr.utmLog] at hp
    obtain ⟨j, hj, rfl⟩ := List.mem_map.mp hp
    have hlt : j < L.utmPages := lt_of_lt_of_le (List.mem_range.mp hj) hr.fits.2
    rw [Layout.utmPage_eq (by omega)]
    exact in_frames L.utm_le hlt

/-- **A run stays inside the buffers exactly when what it means fits**, and
then ends as its meaning ends, in a state that represents it. -/
theorem run_represents {L : Layout} {s : Keystone} {a : AddressSpace} (hr : Repr L s a)
    {rs : List Request} (hv : ∀ r ∈ rs, r.Valid) (hin : InBuffers L (exec (runAll rs) s).2) :
    (exec (runAll rs) s).1 = (exec (forM rs Request.apply) a).1 ∧
      Repr L (exec (runAll rs) s).2 (exec (forM rs Request.apply) a).2 := by
  have hsim := requests_simulate L rs hv
  by_cases hfit : (exec (forM rs Request.apply) a).2.Fits L
  · exact hsim.good s a hr hfit
  · exact absurd hin (hsim.bad s a hr hfit).not_inBuffers

end KeystoneSdk
