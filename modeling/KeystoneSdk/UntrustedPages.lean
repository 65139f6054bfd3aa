/-
The untrusted region of an enclave, as `loadUntrusted` maps it.

`init` obtains a buffer of `untrusted_size` bytes and maps the pages that touch
the untrusted range to the pages of that buffer, one after the other.  The two
ends of the range are rounded in 64 bits, and a page number has 27 bits.

* `UntrustedRun`, `untrustedLoop_run` — what the loop makes of an address space;
* `lackingTables` — how many page tables the range still needs;
* **`untrusted_mapped_iff`** — for which ranges every page is mapped, and to a
  page inside the buffer.
-/
import KeystoneSdk.PageTableMap
import KeystoneSdk.SegmentPages

open ByteMemory StopM

namespace KeystoneSdk

/-! ### The range -/

/-- Page `n` touches the range of `size` bytes at `start`. -/
def Touches (start size : BitVec 64) (n : ℕ) : Prop :=
  4096 * n < start.toNat + size.toNat ∧ start.toNat < 4096 * (n + 1)

/-- The physical page an address is mapped to. -/
def Keystone.pageAt (s : Keystone) (va : Vaddr) : Option Paddr := (s.pteAt va).map ptePhys

/-- The untrusted range of `s` is mapped completely and within its buffer:
`out` is the outcome of mapping it, and `s.utmFreeList` is where the buffer
starts. -/
structure UntrustedMapped (s : Keystone) (out : Except Stop KeystoneStatus × Keystone) :
    Prop where
  returns : out.1 = .ok .keystoneSuccess
  mapped : ∀ n, Touches s.untrustedStart s.untrustedSize n →
    out.2.pageAt (frameAddr n 0) ≠ none
  consecutive : ∀ n p, Touches s.untrustedStart s.untrustedSize n →
    Touches s.untrustedStart s.untrustedSize (n + 1) →
      out.2.pageAt (frameAddr n 0) = some p →
        out.2.pageAt (frameAddr (n + 1) 0) = some (p + pageSize)
  inside : ∀ n p, Touches s.untrustedStart s.untrustedSize n →
    out.2.pageAt (frameAddr n 0) = some p →
      s.utmFreeList.toNat ≤ p.toNat ∧
        p.toNat + 4096 ≤ s.utmFreeList.toNat + s.untrustedSize.toNat
  /-- A page number that no page of the range has is as it was. -/
  others : ∀ va, (∀ n, Touches s.untrustedStart s.untrustedSize n → vpn va ≠ n % 2 ^ 27) →
    out.2.pageAt va = s.pageAt va

/-- The range consists of whole pages, ends below the top of the address space,
and has no two pages with one page number. -/
structure WholePages (start size : BitVec 64) : Prop where
  start_aligned : start.toNat % 4096 = 0
  size_aligned : size.toNat % 4096 = 0
  below_top : start.toNat + size.toNat < 2 ^ 64
  numbered : size.toNat ≤ 2 ^ 39

/-! ### The buffer -/

/-- How `init` obtains the UTM; `utmMem` is the block `calloc` returns. -/
def obtainUtm (utmMem : Vaddr) (size : BitVec 64) : Loader Unit := do
  let utmFreeList ← allocMem utmMem size
  modify fun s => { s with utmFreeList := utmFreeList }

/-- The block for a UTM of `size` bytes: it ends below the top of the address
space and has no byte in common with the EPM. -/
structure UtmBlock (L : Layout) (utmMem : Vaddr) (size : BitVec 64) : Prop where
  below_top : utmMem.toNat + (size + pageSize).toNat ≤ 2 ^ 64
  apart : utmMem.toNat + (size + pageSize).toNat ≤ 4096 * L.epmFrame ∨
    4096 * (L.epmFrame + L.epmPages) ≤ utmMem.toNat

/-! ### Missing page tables -/

namespace AddressSpace

/-- How many of the tables `Q` at height `h` do not exist. -/
def lackingAt (a : AddressSpace) (h : ℕ) (Q : Finset ℕ) : ℕ :=
  (Q.filter fun q => a.tab h q = none).card

/-- How many tables do not exist that pages `V` need. -/
def lacking (a : AddressSpace) (V : Finset ℕ) : ℕ :=
  a.lackingAt 0 (V.image (· / 512)) + a.lackingAt 1 (V.image (· / 262144))

variable {a : AddressSpace} {h q : ℕ} {Q : Finset ℕ}

/-- A table is taken from the EPM exactly when it was missing. -/
theorem ensureTable_lackingAt (hq : q ∈ Q) :
    (a.ensureTable h q).epmUsed + (a.ensureTable h q).lackingAt h Q =
      a.epmUsed + a.lackingAt h Q := by
  rcases hk : a.tab h q with _ | k
  · rw [ensureTable_of_none hk]
    have hmem : q ∈ Q.filter fun q' => a.tab h q' = none := Finset.mem_filter.mpr ⟨hq, hk⟩
    have hnew : (Q.filter fun q' => (a.addTable h q).tab h q' = none) =
        (Q.filter fun q' => a.tab h q' = none).erase q := by
      ext q'
      rw [Finset.mem_erase, Finset.mem_filter, Finset.mem_filter]
      by_cases hqq : q' = q
      · subst hqq
        simp [addTable_tab_self]
      · rw [addTable_tab_of_ne fun hc => hqq hc.2]
        simp [hqq]
    have hpos := Finset.card_pos.mpr ⟨q, hmem⟩
    show a.epmUsed + 1 + _ = _
    rw [lackingAt, lackingAt, hnew, Finset.card_erase_of_mem hmem]
    omega
  · rw [ensureTable_of_some hk]

theorem ensureTable_lackingAt_of_ne {h' : ℕ} (hne : h' ≠ h) :
    (a.ensureTable h q).lackingAt h' Q = a.lackingAt h' Q := by
  rcases hk : a.tab h q with _ | k
  · rw [ensureTable_of_none hk, lackingAt, lackingAt]
    congr 2
    funext q'
    rw [addTable_tab_of_ne fun hc => hne hc.1]
  · rw [ensureTable_of_some hk]

/-- What a walk takes from the EPM, the pages it is for no longer lack. -/
theorem touch_lacking {v : ℕ} {V : Finset ℕ} (hv : v ∈ V) :
    (a.touch v).epmUsed + (a.touch v).lacking V = a.epmUsed + a.lacking V := by
  have h1 : v / 262144 ∈ V.image (· / 262144) := Finset.mem_image_of_mem _ hv
  have h0 : v / 512 ∈ V.image (· / 512) := Finset.mem_image_of_mem _ hv
  have hmid := ensureTable_lackingAt (a := a) (h := 1) h1
  have hleaf := ensureTable_lackingAt (a := a.ensureTable 1 (v / 262144)) (h := 0) h0
  rw [touch, lacking, lacking, ensureTable_lackingAt_of_ne (show 1 ≠ 0 by decide)]
  rw [ensureTable_lackingAt_of_ne (show 0 ≠ 1 by decide)] at hleaf
  omega

end AddressSpace

/-! ### The loop on an address space -/

/-- The flags of a page of the untrusted region. -/
def utmFlags : BitVec 64 := pteD ||| pteA ||| pteR ||| pteW ||| pteV ||| pteL

namespace AddressSpace

/-- Map page number `v` to the next page of the UTM. -/
def mapUntrusted (a : AddressSpace) (v : ℕ) : AddressSpace :=
  ((a.touch v).addLeaf v .utm utmFlags).fill v nullpage.bytes

variable {a : AddressSpace} {v : ℕ}

@[simp] theorem mapUntrusted_utmUsed : (a.mapUntrusted v).utmUsed = a.utmUsed + 1 := by
  show (a.touch v).utmUsed + 1 = _
  rw [touch_utmUsed]

theorem mapUntrusted_leaf_self :
    ∃ lf, (a.mapUntrusted v).leaf v = some lf ∧ lf.frame = .utm a.utmUsed := by
  refine ⟨_, fill_leaf_self (addLeaf_leaf_self .utm utmFlags) _, ?_⟩
  show Frame.utm (a.touch v).utmUsed = _
  rw [touch_utmUsed]

theorem mapUntrusted_leaf_of_ne {v' : ℕ} (hne : v' ≠ v) :
    (a.mapUntrusted v).leaf v' = a.leaf v' := by
  rw [mapUntrusted, fill_leaf_of_ne hne, addLeaf_leaf_of_ne hne, touch_leaf]

theorem mapUntrusted_lacking {V : Finset ℕ} (hv : v ∈ V) :
    (a.mapUntrusted v).epmUsed + (a.mapUntrusted v).lacking V = a.epmUsed + a.lacking V :=
  touch_lacking hv

/-- `allocPage` for an untrusted page that is not mapped yet. -/
theorem apply_untrusted {va : Vaddr} (hnone : a.leaf (vpn va) = none) :
    exec (Request.alloc va .utm nullpage utmFull).apply a =
      (.ok ⟨⟩, a.mapUntrusted (vpn va)) := by
  have hnone' : (a.touch (vpn va)).leaf (vpn va) = none := by rw [touch_leaf, hnone]
  rw [exec_apply_alloc a va .utm nullpage (show modeFlags utmFull = some utmFlags from rfl),
    place_new hnone', if_pos (show modeWrites utmFull = true from rfl),
    if_pos (show nullpage.readable 4096 = true from HostPtr.readable_ofBytes _ _)]
  rfl

end AddressSpace

/-- What mapping `k` pages from page `v` on makes of an address space. -/
structure UntrustedRun (a b : AddressSpace) (v k : ℕ) : Prop where
  utmUsed : b.utmUsed = a.utmUsed + k
  leaf : ∀ i < k, ∃ lf, b.leaf ((v + i) % 2 ^ 27) = some lf ∧ lf.frame = .utm (a.utmUsed + i)
  others : ∀ w, (∀ i < k, w ≠ (v + i) % 2 ^ 27) → b.leaf w = a.leaf w
  tables : ∀ V : Finset ℕ, (∀ i < k, (v + i) % 2 ^ 27 ∈ V) →
    b.epmUsed + b.lacking V = a.epmUsed + a.lacking V

theorem vpn_page (n : ℕ) : vpn (frameAddr n 0) = n % 2 ^ 27 :=
  vpn_frameAddr (by decide)

theorem UntrustedRun.refl (a : AddressSpace) (v : ℕ) : UntrustedRun a a v 0 where
  utmUsed := rfl
  leaf := fun i hi => absurd hi (Nat.not_lt_zero i)
  others := fun _ _ => rfl
  tables := fun _ _ => rfl

/-- One page, then the others. -/
theorem UntrustedRun.cons {a b : AddressSpace} {v k : ℕ} (hk : k < 2 ^ 27)
    (h : UntrustedRun (a.mapUntrusted (v % 2 ^ 27)) b (v + 1) k) : UntrustedRun a b v (k + 1) where
  utmUsed := by
    rw [h.utmUsed, AddressSpace.mapUntrusted_utmUsed]
    omega
  leaf := by
    intro i hi
    rcases Nat.eq_zero_or_pos i with rfl | hpos
    · -- the first page is none of the others
      obtain ⟨lf, hl, hfr⟩ := AddressSpace.mapUntrusted_leaf_self (a := a) (v := v % 2 ^ 27)
      refine ⟨lf, ?_, hfr⟩
      rw [Nat.add_zero, h.others _ fun i hi => by omega]
      exact hl
    · obtain ⟨lf, hl, hfr⟩ := h.leaf (i - 1) (by omega)
      rw [AddressSpace.mapUntrusted_utmUsed] at hfr
      rw [show v + i = v + 1 + (i - 1) by omega]
      refine ⟨lf, hl, ?_⟩
      rw [hfr, show a.utmUsed + 1 + (i - 1) = a.utmUsed + i by omega]
  others := by
    intro w hw
    have hfirst : w ≠ v % 2 ^ 27 := hw 0 (by omega)
    rw [h.others w, AddressSpace.mapUntrusted_leaf_of_ne hfirst]
    intro i hi
    have hi := hw (i + 1) (by omega)
    rwa [show v + 1 + i = v + (i + 1) by omega]
  tables := by
    intro V hV
    have hfirst : v % 2 ^ 27 ∈ V := hV 0 (by omega)
    rw [h.tables V, AddressSpace.mapUntrusted_lacking hfirst]
    intro i hi
    rw [show v + 1 + i = v + (i + 1) by omega]
    exact hV (i + 1) (by omega)

/-- **The loop maps its pages one after the other**, when they are not mapped
yet and have different page numbers. -/
theorem untrustedLoop_run {a : AddressSpace} {v k n : ℕ} (hn : k < n) (hk : k ≤ 2 ^ 27)
    (htop : v + k < 2 ^ 52) (hnone : ∀ i < k, a.leaf ((v + i) % 2 ^ 27) = none) :
    ∃ b, exec (forM (untrustedLoopRequests (frameAddr (v + k) 0) n (frameAddr v 0))
        Request.apply) a = (.ok ⟨⟩, b) ∧ UntrustedRun a b v k := by
  induction k generalizing a v n with
  | zero =>
    obtain ⟨n, rfl⟩ : ∃ n', n = n' + 1 := ⟨n - 1, by omega⟩
    refine ⟨a, ?_, .refl a v⟩
    rw [Nat.add_zero, untrustedLoopRequests, if_neg (BitVec.lt_irrefl _)]
    rfl
  | succ k ih =>
    obtain ⟨n, rfl⟩ : ∃ n', n = n' + 1 := ⟨n - 1, by omega⟩
    have hlt : frameAddr v 0 < frameAddr (v + (k + 1)) 0 := by
      rw [BitVec.lt_def, frameAddr_toNat (by omega) (by decide),
        frameAddr_toNat (by omega) (by decide)]
      omega
    have hvpn : vpn (frameAddr v 0) = v % 2 ^ 27 := vpn_page v
    have hfirst : a.leaf (vpn (frameAddr v 0)) = none := by
      rw [hvpn]
      exact hnone 0 (by omega)
    have hrest : ∀ i < k, (a.mapUntrusted (v % 2 ^ 27)).leaf ((v + 1 + i) % 2 ^ 27) = none := by
      intro i hi
      rw [AddressSpace.mapUntrusted_leaf_of_ne (by omega), Nat.add_assoc, Nat.add_comm 1 i]
      exact hnone (i + 1) (by omega)
    obtain ⟨b, hb, hrun⟩ := ih (show k < n by omega) (by omega) (show v + 1 + k < 2 ^ 52 by omega)
      hrest
    refine ⟨b, ?_, hrun.cons (by omega)⟩
    rw [untrustedLoopRequests, if_pos hlt, List.forM_cons,
      exec_bind_ok (AddressSpace.apply_untrusted hfirst), frameAddr_add_pageSize, hvpn]
    rw [show v + 1 + k = v + (k + 1) by omega] at hb
    exact hb

/-! ### The state with its buffer -/

section Buffer

variable {L : Layout} {s : Keystone} {a : AddressSpace} {utmMem : Vaddr} {size : BitVec 64}

/-- Where the buffer starts. -/
def utmStart (utmMem : Vaddr) : Vaddr :=
  (utmMem + (pageSize - 1#64)) &&& ~~~(pageSize - 1#64)

theorem utmStart_eq (utmMem : Vaddr) : utmStart utmMem = roundDown (utmMem + 4095#64) pageBits := by
  have hmask : pageSize - 1#64 = 4095#64 := by decide
  have hround : (2#64 <<< (pageBits - 1)) - 1#64 = 4095#64 := by decide
  rw [utmStart, roundDown, hmask, hround]

theorem exec_obtainUtm (utmMem : Vaddr) (size : BitVec 64) (s : Keystone) :
    exec (obtainUtm utmMem size) s = (.ok ⟨⟩, { s with
      mem := writeBytes s.mem utmMem (size + pageSize).toNat fun _ => 0
      utmFreeList := utmStart utmMem }) := by
  rw [obtainUtm, allocMem, bind_assoc, exec_bind, exec_modify]
  simp only [pure_bind, exec_modify]
  rfl

/-- The range is what it was. -/
theorem obtainUtm_range (utmMem : Vaddr) (size : BitVec 64) (s : Keystone) :
    (exec (obtainUtm utmMem size) s).2.untrustedStart = s.untrustedStart ∧
      (exec (obtainUtm utmMem size) s).2.untrustedSize = s.untrustedSize := by
  rw [exec_obtainUtm]
  exact ⟨rfl, rfl⟩

theorem UtmBlock.start_toNat (hb : UtmBlock L utmMem size) (hsize : size.toNat + 4096 < 2 ^ 64) :
    (utmStart utmMem).toNat = (utmMem.toNat + 4095) / 4096 * 4096 ∧
      utmMem.toNat + size.toNat + 4096 ≤ 2 ^ 64 ∧
      (utmMem.toNat + size.toNat + 4096 ≤ 4096 * L.epmFrame ∨
        4096 * (L.epmFrame + L.epmPages) ≤ utmMem.toNat) := by
  have hlen : (size + pageSize).toNat = size.toNat + 4096 := by
    rw [BitVec.toNat_add, pageSize_toNat, Nat.mod_eq_of_lt hsize]
  have htop := hb.below_top
  have hapart := hb.apart
  rw [hlen, ← Nat.add_assoc] at htop hapart
  refine ⟨?_, htop, hapart⟩
  rw [utmStart_eq, roundDown_toNat, BitVec.toNat_add, show (4095#64).toNat = 4095 from rfl]
  omega

/-- The layout with the whole pages of the buffer, when the block is as large as
it was asked to be. -/
def withUtm (hb : UtmBlock L utmMem size) (hsize : size.toNat + 4096 < 2 ^ 64) : Layout where
  epmFrame := L.epmFrame
  epmPages := L.epmPages
  utmFrame := (utmStart utmMem).toNat / 4096
  utmPages := size.toNat / 4096
  utmBase := utmStart utmMem
  utmBase_eq := by
    intro _
    obtain ⟨hstart, -, -⟩ := hb.start_toNat hsize
    apply BitVec.eq_of_toNat_eq
    rw [frameAddr_toNat (by omega) (by decide)]
    omega
  epm_le := L.epm_le
  utm_le := by
    obtain ⟨hstart, htop, -⟩ := hb.start_toNat hsize
    omega
  epmPages_lt := L.epmPages_lt
  utmPages_lt := by omega
  disjoint := by
    intro i j hi hj
    obtain ⟨hstart, -, hapart⟩ := hb.start_toNat hsize
    omega

/-- The block has no byte of the EPM. -/
theorem UtmBlock.epm_kept (hb : UtmBlock L utmMem size) (m : Mem) {k o : ℕ} (hk : k < L.epmPages)
    (ho : o < 4096) :
    writeBytes m utmMem (size + pageSize).toNat (fun _ => 0) (frameAddr (L.epmFrame + k) o) =
      m (frameAddr (L.epmFrame + k) o) := by
  have hle := L.epm_le
  have hapart := hb.apart
  have hw := writeBytes_ofNat m (fun _ => 0) hb.below_top
    (show 4096 * (L.epmFrame + k) + o < 2 ^ 64 by omega)
  rw [BitVec.ofNat_toNat, BitVec.setWidth_eq] at hw
  rw [frameAddr, hw, if_neg]
  generalize (size + pageSize).toNat = n at hapart
  omega

/-- The layout with a free list that has no pages yet. -/
def withStart (L : Layout) (hL : L.utmPages = 0) (utmBase : Vaddr) : Layout :=
  { L with utmBase := utmBase, utmBase_eq := fun h => absurd hL h.ne' }

/-- The page table is what it was before the UTM was obtained. -/
theorem obtainUtm_keeps (hr : Repr L s a) (hL : L.utmPages = 0) (hb : UtmBlock L utmMem size) :
    Repr (withStart L hL (utmStart utmMem)) (exec (obtainUtm utmMem size) s).2 a := by
  have hused : a.utmUsed = 0 := Nat.le_zero.mp (hL ▸ hr.fits.2)
  have hepm : ∀ k o, k < L.epmPages → o < 4096 → _ := fun k o => hb.epm_kept s.mem (k := k) (o := o)
  rw [exec_obtainUtm]
  generalize (size + pageSize).toNat = n at hepm ⊢
  refine hr.attachUtm hused rfl rfl ⟨rfl, rfl, rfl, rfl, rfl, ?_, ?_⟩
  · intro k o hk ho
    exact hepm k o hk ho
  · intro j o hj
    have hj : j < L.utmPages := hj
    omega

theorem obtainUtm_represents (hr : Repr L s a) (hL : L.utmPages = 0)
    (hb : UtmBlock L utmMem size) (hsize : size.toNat + 4096 < 2 ^ 64) :
    Repr (withUtm hb hsize) (exec (obtainUtm utmMem size) s).2 a := by
  have hused : a.utmUsed = 0 := Nat.le_zero.mp (hL ▸ hr.fits.2)
  obtain ⟨hstart, htop, hapart⟩ := hb.start_toNat hsize
  have hlen : (size + pageSize).toNat = size.toNat + 4096 := by
    rw [BitVec.toNat_add, pageSize_toNat, Nat.mod_eq_of_lt hsize]
  rw [exec_obtainUtm, hlen]
  have hmem : ∀ f o, 4096 * f + o < 2 ^ 64 →
      writeBytes s.mem utmMem (size.toNat + 4096) (fun _ => 0) (frameAddr f o) =
        if utmMem.toNat ≤ 4096 * f + o ∧ 4096 * f + o < utmMem.toNat + (size.toNat + 4096) then 0
        else s.mem (frameAddr f o) := by
    intro f o hfo
    have hend : utmMem.toNat + (size.toNat + 4096) ≤ 2 ^ 64 := by
      rw [← Nat.add_assoc]
      exact htop
    have hw := writeBytes_ofNat s.mem (fun _ => 0) hend hfo
    rw [BitVec.ofNat_toNat, BitVec.setWidth_eq] at hw
    rw [frameAddr, hw]
  refine hr.attachUtm hused rfl rfl ⟨rfl, rfl, rfl, rfl, rfl, ?_, ?_⟩
  · intro k o hk ho
    have hkept := hb.epm_kept s.mem hk ho
    rw [hlen] at hkept
    exact hkept
  · -- the pages of the buffer are in the block
    intro j o hj ho
    have hj : j < size.toNat / 4096 := hj
    exact (hmem ((utmStart utmMem).toNat / 4096 + j) o (by omega)).trans (if_pos (by omega))

end Buffer

/-! ### Which page a page number is mapped to -/

section PageAt

variable {L : Layout} {s : Keystone} {a : AddressSpace}

theorem pageAt_eq (hr : Repr L s a) (va : Vaddr) :
    s.pageAt va = (a.leaf (vpn va)).map fun lf => frameAddr (lf.frame.number L) 0 := by
  rw [Keystone.pageAt, pteAt_eq hr, Option.map_map]
  rcases hl : a.leaf (vpn va) with _ | lf
  · rfl
  · exact congrArg some (ptePpn_shiftLeft (hr.leaf_inside hl).number_lt (hr.wf.leaf_flags hl))

theorem eptWalkLoop_congr {va va' : Vaddr} (h : vpn va = vpn va')
    (missing : Addr → Loader (Option Addr)) {i : ℕ} (hi : i < 3) (t : Addr) :
    eptWalkLoop va missing i t = eptWalkLoop va' missing i t := by
  have hidx : ∀ j < 3, ptIdx va j = ptIdx va' j := by
    intro j hj
    rw [ptIdx_eq_vpn va hj, ptIdx_eq_vpn va' hj, h]
  induction i generalizing t with
  | zero => rw [eptWalkLoop, eptWalkLoop, hidx 0 (by decide)]
  | succ i ih =>
    rw [eptWalkLoop, eptWalkLoop, hidx (i + 1) hi]
    simp only [ih (by omega)]

/-- Addresses with one page number are mapped to one page. -/
theorem pageAt_congr (s : Keystone) {va va' : Vaddr} (h : vpn va = vpn va') :
    s.pageAt va = s.pageAt va' := by
  have hwalk : eptWalk va = eptWalk va' := by
    rw [eptWalk, eptWalk, eptWalkInternal, eptWalkInternal]
    simp only [Bool.false_eq_true, if_false]
    refine bind_congr fun s' => ?_
    exact eptWalkLoop_congr h _ (by decide) _
  rw [Keystone.pageAt, Keystone.pageAt, Keystone.pteAt, Keystone.pteAt, hwalk]

end PageAt

/-! ### What the range must be -/

section Necessary

variable {s : Keystone}

/-- The rounded end of a range that reaches the last page of the address space
is 0, and nothing is mapped. -/
theorem loadUntrusted_wraps
    (hle : s.untrustedStart.toNat + s.untrustedSize.toNat ≤ 2 ^ 64)
    (htop : 2 ^ 64 - 4096 < s.untrustedStart.toNat + s.untrustedSize.toNat) :
    exec loadUntrusted s = (.ok .keystoneSuccess, s) := by
  have hend : roundUp (s.untrustedStart + s.untrustedSize) pageBits = 0#64 := by
    apply BitVec.eq_of_toNat_eq
    rw [roundUp_toNat, BitVec.toNat_add]
    show _ = 0
    omega
  have hrounds : loopRounds = 4503599627370495 + 1 := rfl
  have hrs : untrustedRequests s.untrustedStart s.untrustedSize = [] := by
    rw [untrustedRequests, hend, hrounds, untrustedLoopRequests, if_neg (BitVec.not_lt_zero)]
  rw [loadUntrusted_eq, exec_bind, exec_get]
  simp only [hrs, runAll_nil, pure_bind, exec_pure]

/-- The pages of a mapped range lie one behind the other. -/
theorem UntrustedMapped.chain {out : Except Stop KeystoneStatus × Keystone}
    (h : UntrustedMapped s out) {v : ℕ} {p : Paddr}
    (hv : Touches s.untrustedStart s.untrustedSize v)
    (hp : out.2.pageAt (frameAddr v 0) = some p) (i : ℕ)
    (hi : Touches s.untrustedStart s.untrustedSize (v + i)) :
    out.2.pageAt (frameAddr (v + i) 0) = some (p + BitVec.ofNat 64 (4096 * i)) := by
  induction i with
  | zero => simpa using hp
  | succ i ih =>
    have hmid : Touches s.untrustedStart s.untrustedSize (v + i) := by
      unfold Touches at hv hi ⊢
      omega
    have hnext := h.consecutive (v + i) _ hmid hi (ih hmid)
    rw [Nat.add_assoc] at hnext
    rw [hnext, BitVec.add_assoc, pageSize_eq, ← BitVec.ofNat_add]
    rfl

/-- A range that is mapped completely and within its buffer consists of whole
pages. -/
theorem UntrustedMapped.wholePages (h : UntrustedMapped s (exec loadUntrusted s))
    (hpos : 0 < s.untrustedSize.toNat)
    (hle : s.untrustedStart.toNat + s.untrustedSize.toNat ≤ 2 ^ 64)
    (hnew : ∀ n, Touches s.untrustedStart s.untrustedSize n → s.pageAt (frameAddr n 0) = none) :
    WholePages s.untrustedStart s.untrustedSize := by
  have hfirst : Touches s.untrustedStart s.untrustedSize (s.untrustedStart.toNat / 4096) := by
    unfold Touches
    omega
  -- the rounded end is the end
  have hbelow : s.untrustedStart.toNat + s.untrustedSize.toNat ≤ 2 ^ 64 - 4096 := by
    by_contra htop
    have hm := h.mapped _ hfirst
    rw [loadUntrusted_wraps hle (by omega)] at hm
    exact hm (hnew _ hfirst)
  obtain ⟨p, hp⟩ := Option.ne_none_iff_exists'.mp (h.mapped _ hfirst)
  -- two pages with one page number would be one page
  have hnumbered : ¬ Touches s.untrustedStart s.untrustedSize
      (s.untrustedStart.toNat / 4096 + 2 ^ 27) := by
    intro hlast
    have hsame := h.chain hfirst hp _ hlast
    have hvpn : vpn (frameAddr (s.untrustedStart.toNat / 4096 + 2 ^ 27) 0) =
        vpn (frameAddr (s.untrustedStart.toNat / 4096) 0) := by
      unfold Touches at hlast
      rw [vpn_page, vpn_page]
      omega
    rw [pageAt_congr _ hvpn, hp] at hsame
    have hnat := congrArg BitVec.toNat (Option.some.inj hsame)
    rw [BitVec.toNat_add, BitVec.toNat_ofNat] at hnat
    have hlt := p.isLt
    omega
  -- the first and the last page lie in the buffer
  have hlast : Touches s.untrustedStart s.untrustedSize (s.untrustedStart.toNat / 4096 +
      ((s.untrustedStart.toNat + s.untrustedSize.toNat - 1) / 4096 -
        s.untrustedStart.toNat / 4096)) := by
    unfold Touches
    omega
  have hin := h.inside _ _ hfirst hp
  have hin' := h.inside _ _ hlast (h.chain hfirst hp _ hlast)
  rw [BitVec.toNat_add, BitVec.toNat_ofNat] at hin'
  unfold Touches at hnumbered
  have hlt := p.isLt
  have hspan : (s.untrustedStart.toNat + s.untrustedSize.toNat - 1) / 4096 -
      s.untrustedStart.toNat / 4096 < 2 ^ 27 := by omega
  have hwhole : 4096 * ((s.untrustedStart.toNat + s.untrustedSize.toNat - 1) / 4096 -
      s.untrustedStart.toNat / 4096 + 1) ≤ s.untrustedSize.toNat := by omega
  constructor <;> omega

end Necessary

/-! ### Whole pages are enough -/

/-- The page numbers of the range. -/
def untrustedVpns (start size : BitVec 64) : Finset ℕ :=
  (Finset.range ((start.toNat + size.toNat + 4095) / 4096 - start.toNat / 4096)).image fun i =>
    (start.toNat / 4096 + i) % 2 ^ 27

/-- The table that has the entries of pages `512 * q` to `512 * q + 511` exists. -/
def Keystone.hasLeafTable (s : Keystone) (q : ℕ) : Bool :=
  match (exec (eptWalk (frameAddr (512 * q) 0)) s).1 with
  | .ok (some _) => true
  | _ => false

/-- How many page tables do not exist that pages `V` need: tables of pages, and
tables of these tables. -/
def Keystone.lackingTables (s : Keystone) (V : Finset ℕ) : ℕ :=
  ((V.image (· / 512)).filter fun q => s.hasLeafTable q = false).card +
    ((V.image (· / 262144)).filter fun q =>
      s.entryAt s.rootPageTable q &&& pteV = 0#64).card

section Sufficient

variable {L : Layout} {s : Keystone} {a : AddressSpace}

theorem hasLeafTable_eq (hr : Repr L s a) {q : ℕ} (hq : q < 2 ^ 18) :
    s.hasLeafTable q = (a.tab 0 q).isSome := by
  have hvpn : vpn (frameAddr (512 * q) 0) / 512 = q := by
    rw [vpn_page]
    omega
  rw [Keystone.hasLeafTable, eptWalk]
  rcases hk : a.tab 0 q with _ | k
  · rw [exec_walk_none hr _ (by rw [hvpn, hk])]
    rfl
  · rw [exec_walk_of_tab hr 0 _ false (by rw [hvpn, hk])]
    rfl

theorem root_entry_eq (hr : Repr L s a) {q : ℕ} (hq : q < 512) :
    s.entryAt s.rootPageTable q &&& pteV = 0#64 ↔ a.tab 1 q = none := by
  have hent := hr.entryAt_eq hr.wf.root hq
  rw [Nat.add_zero, ← hr.root, Nat.mul_zero, Nat.zero_add] at hent
  rw [hent]
  rcases hk : a.tab 1 q with _ | k
  · rw [AddressSpace.entry_tab_none hk]
    simp
  · rw [AddressSpace.entry_tab_some hk, ptdCreate]
    simp [pteCreate_valid]

/-- The tables that do not exist in memory do not exist in the address space. -/
theorem lackingTables_eq (hr : Repr L s a) {V : Finset ℕ} (hV : ∀ v ∈ V, v < 2 ^ 27) :
    s.lackingTables V = a.lacking V := by
  rw [Keystone.lackingTables, AddressSpace.lacking, AddressSpace.lackingAt,
    AddressSpace.lackingAt]
  refine congrArg₂ (fun x y => Finset.card x + Finset.card y) ?_ ?_
  · refine Finset.filter_congr fun q hq => ?_
    obtain ⟨v, hv, rfl⟩ := Finset.mem_image.mp hq
    have hlt := hV v hv
    rw [hasLeafTable_eq hr (by omega)]
    simp
  · refine Finset.filter_congr fun q hq => ?_
    obtain ⟨v, hv, rfl⟩ := Finset.mem_image.mp hq
    have hlt := hV v hv
    exact root_entry_eq hr (by omega)

theorem untrustedVpns_lt {start size : BitVec 64} : ∀ v ∈ untrustedVpns start size, v < 2 ^ 27 := by
  intro v hv
  obtain ⟨i, -, rfl⟩ := Finset.mem_image.mp hv
  exact Nat.mod_lt _ (by decide)

/-- What `loadUntrusted` asks for, when the range consists of whole pages. -/
theorem WholePages.requests {start size : BitVec 64} (h : WholePages start size) :
    untrustedRequests start size =
      untrustedLoopRequests (frameAddr (start.toNat / 4096 + size.toNat / 4096) 0) loopRounds
        (frameAddr (start.toNat / 4096) 0) := by
  obtain ⟨h1, h2, h3, h4⟩ := h
  have hstart : roundDown start pageBits = frameAddr (start.toNat / 4096) 0 := by
    apply BitVec.eq_of_toNat_eq
    rw [roundDown_toNat, frameAddr_toNat (by omega) (by decide)]
    omega
  have hend : roundUp (start + size) pageBits =
      frameAddr (start.toNat / 4096 + size.toNat / 4096) 0 := by
    apply BitVec.eq_of_toNat_eq
    rw [roundUp_toNat, BitVec.toNat_add, frameAddr_toNat (by omega) (by decide)]
    omega
  rw [untrustedRequests, hstart, hend]

/-- The run of `loadUntrusted` over whole pages that are not mapped yet. -/
theorem loadUntrusted_represents (hr : Repr L s a) (hused : a.utmUsed = 0)
    (hwhole : WholePages s.untrustedStart s.untrustedSize)
    (hfit : s.untrustedSize.toNat / 4096 ≤ L.utmPages)
    (hnew : ∀ n, Touches s.untrustedStart s.untrustedSize n → s.pageAt (frameAddr n 0) = none)
    (hroom : a.epmUsed + a.lacking (untrustedVpns s.untrustedStart s.untrustedSize) ≤
      L.epmPages) :
    ∃ b, UntrustedRun a b (s.untrustedStart.toNat / 4096) (s.untrustedSize.toNat / 4096) ∧
      Repr L (exec loadUntrusted s).2 b ∧
      (exec loadUntrusted s).1 = .ok .keystoneSuccess := by
  obtain ⟨h1, h2, h3, h4⟩ := hwhole
  have hnone : ∀ i < s.untrustedSize.toNat / 4096,
      a.leaf ((s.untrustedStart.toNat / 4096 + i) % 2 ^ 27) = none := by
    intro i hi
    have hpage := hnew (s.untrustedStart.toNat / 4096 + i) (by unfold Touches; omega)
    rw [pageAt_eq hr, vpn_page, Option.map_eq_none_iff] at hpage
    exact hpage
  obtain ⟨b, hb, hrun⟩ := untrustedLoop_run (n := loopRounds)
    (show s.untrustedSize.toNat / 4096 < 4503599627370496 by omega) (by omega) (by omega) hnone
  rw [← WholePages.requests ⟨h1, h2, h3, h4⟩] at hb
  -- the tables come out of the room there was, the pages out of the buffer
  have htables := hrun.tables (untrustedVpns s.untrustedStart s.untrustedSize) (by
    intro i hi
    exact Finset.mem_image_of_mem _ (Finset.mem_range.mpr (by omega)))
  have hfits : b.Fits L := by
    refine ⟨by omega, ?_⟩
    rw [hrun.utmUsed, hused]
    omega
  have hsim := (requests_simulate L (untrustedRequests s.untrustedStart s.untrustedSize)
    (untrustedLoopRequests_valid _ _ _)).good s a hr (by rw [hb]; exact hfits)
  rw [hb] at hsim
  rcases hx : exec (runAll (untrustedRequests s.untrustedStart s.untrustedSize)) s with ⟨r, s'⟩
  rw [hx] at hsim
  obtain ⟨hok, hrb⟩ := hsim
  change r = .ok ⟨⟩ at hok
  subst hok
  rw [loadUntrusted_eq, exec_bind, exec_get]
  dsimp only
  rw [exec_bind_ok hx, exec_pure]
  exact ⟨b, hrun, hrb, rfl⟩

/-- **Whole pages are mapped completely and within the buffer.** -/
theorem WholePages.mapped (hr : Repr L s a) (hused : a.utmUsed = 0)
    (hwhole : WholePages s.untrustedStart s.untrustedSize)
    (hbuffer : L.utmPages = s.untrustedSize.toNat / 4096)
    (hnew : ∀ n, Touches s.untrustedStart s.untrustedSize n → s.pageAt (frameAddr n 0) = none)
    (hroom : a.epmUsed + a.lacking (untrustedVpns s.untrustedStart s.untrustedSize) ≤
      L.epmPages) :
    UntrustedMapped s (exec loadUntrusted s) := by
  obtain ⟨b, hrun, hrb, hok⟩ := loadUntrusted_represents hr hused hwhole hbuffer.ge hnew hroom
  obtain ⟨h1, h2, h3, h4⟩ := hwhole
  -- the page of a page number of the range
  have hpage : ∀ n, Touches s.untrustedStart s.untrustedSize n →
      (exec loadUntrusted s).2.pageAt (frameAddr n 0) =
        some (frameAddr (L.utmFrame + (n - s.untrustedStart.toNat / 4096)) 0) := by
    intro n hn
    unfold Touches at hn
    obtain ⟨lf, hl, hfr⟩ := hrun.leaf (n - s.untrustedStart.toNat / 4096) (by omega)
    rw [show s.untrustedStart.toNat / 4096 + (n - s.untrustedStart.toNat / 4096) = n by omega] at hl
    rw [pageAt_eq hrb, vpn_page, hl, Option.map_some, hfr, hused, Nat.zero_add]
    rfl
  refine ⟨hok, ?_, ?_, ?_, ?_⟩
  · intro n hn
    rw [hpage n hn]
    exact Option.some_ne_none _
  · intro n p hn hn' hp
    rw [hpage n hn] at hp
    have hnext : L.utmFrame + (n - s.untrustedStart.toNat / 4096) + 1 =
        L.utmFrame + (n + 1 - s.untrustedStart.toNat / 4096) := by
      unfold Touches at hn
      omega
    rw [hpage (n + 1) hn', ← Option.some.inj hp, frameAddr_add_pageSize, hnext]
  · intro n p hn hp
    rw [hpage n hn] at hp
    unfold Touches at hn
    have hutm := L.utm_le
    have hbase : s.utmFreeList = frameAddr L.utmFrame 0 := by
      rw [hr.utmFree, hused, Layout.utmPage_eq (by omega), Nat.add_zero]
    rw [hbase, ← Option.some.inj hp, frameAddr_toNat (by omega) (by decide),
      frameAddr_toNat (by omega) (by decide)]
    omega
  · intro va hva
    rw [pageAt_eq hrb, pageAt_eq hr, hrun.others]
    intro i hi
    exact hva _ (by unfold Touches; omega)

end Sufficient

/-- **When the untrusted region is mapped completely and within its buffer.**
`s` is a state of the loader without a UTM, and the pages of the range are not
mapped: after `AllocMem` and `loadUntrusted` they all are, consecutively and inside
the buffer, only when the range consists of whole pages; and then they are if the
EPM has room for the page tables that the range lacks. -/
theorem untrusted_mapped_iff {L : Layout} {s : Keystone} {utmMem : Vaddr} (hs : Reachable L s)
    (hL : L.utmPages = 0) (hblock : UtmBlock L utmMem s.untrustedSize)
    (hpos : 0 < s.untrustedSize.toNat)
    (hle : s.untrustedStart.toNat + s.untrustedSize.toNat ≤ 2 ^ 64)
    (hnew : ∀ n, Touches s.untrustedStart s.untrustedSize n → s.pageAt (frameAddr n 0) = none) :
    (UntrustedMapped (exec (obtainUtm utmMem s.untrustedSize) s).2
        (exec loadUntrusted (exec (obtainUtm utmMem s.untrustedSize) s).2) →
      WholePages s.untrustedStart s.untrustedSize) ∧
    (s.epmPages.length + s.lackingTables (untrustedVpns s.untrustedStart s.untrustedSize) ≤
        L.epmPages →
      WholePages s.untrustedStart s.untrustedSize →
        UntrustedMapped (exec (obtainUtm utmMem s.untrustedSize) s).2
          (exec loadUntrusted (exec (obtainUtm utmMem s.untrustedSize) s).2)) := by
  obtain ⟨a, hr⟩ := hs.repr
  have hused : a.utmUsed = 0 := Nat.le_zero.mp (hL ▸ hr.fits.2)
  have hkept := obtainUtm_keeps hr hL hblock
  obtain ⟨hstart, hsize⟩ := obtainUtm_range utmMem s.untrustedSize s
  have hnew' : ∀ n, Touches s.untrustedStart s.untrustedSize n →
      (exec (obtainUtm utmMem s.untrustedSize) s).2.pageAt (frameAddr n 0) = none := by
    intro n hn
    have hpage := hnew n hn
    rw [pageAt_eq hr, Option.map_eq_none_iff] at hpage
    rw [pageAt_eq hkept, hpage]
    rfl
  constructor
  · -- the buffer is as long as the range, and every page of it lies inside
    intro h
    have hwhole := h.wholePages
    rw [hstart, hsize] at hwhole
    exact hwhole hpos hle hnew'
  · intro hroom hwhole
    have hnumbered := hwhole.numbered
    have hrep := obtainUtm_represents hr hL hblock (by omega)
    have hroom' : a.epmUsed + a.lacking (untrustedVpns s.untrustedStart s.untrustedSize) ≤
        L.epmPages := by
      rw [hr.epmLog, List.length_map, List.length_range,
        lackingTables_eq hr untrustedVpns_lt] at hroom
      exact hroom
    refine WholePages.mapped hrep hused ?_ ?_ ?_ ?_
    · rw [hstart, hsize]
      exact hwhole
    · rw [hsize]
      rfl
    · rw [hstart, hsize]
      exact hnew'
    · rw [hstart, hsize]
      exact hroom'

theorem noPages_lt : 0 < 2 ^ 52 := by decide

/-- `smallLayout` before its UTM exists. -/
def smallEpm : Layout :=
  { smallLayout with
    utmPages := 0
    utmBase_eq := fun h => absurd h (by decide)
    utm_le := by decide
    utmPages_lt := noPages_lt
    disjoint := fun _ _ _ hj => absurd hj (Nat.not_lt_zero _) }

/-- The first state over it, with the untrusted range `[start, start + size)`. -/
def rangeState (start size : BitVec 64) : Keystone :=
  { smallState with untrustedStart := start, untrustedSize := size }

theorem rangeState_initial (start size : BitVec 64) :
    Repr.Initial smallEpm (rangeState start size) where
  room := by decide
  root := rfl
  epmFree := rfl
  utmFree := rfl
  zero := fun _ _ => rfl
  epmLog := rfl
  utmLog := rfl

theorem rangeState_reachable (start size : BitVec 64) :
    Reachable smallEpm (rangeState start size) :=
  ⟨_, [], rangeState_initial start size, fun _ hc => absurd hc List.not_mem_nil, rfl,
    (Repr.of_initial (rangeState_initial start size)).inBuffers⟩

theorem rangeState_pageAt (start size : BitVec 64) (va : Vaddr) :
    (rangeState start size).pageAt va = none := by
  rw [pageAt_eq (Repr.of_initial (rangeState_initial start size))]
  rfl

theorem smallEpm_block : UtmBlock smallEpm 0x20000#64 0x1000#64 :=
  ⟨by decide, by decide⟩

theorem rangeState_room (start : BitVec 64) {V : Finset ℕ} (hV : V.card ≤ 1)
    (hlt : ∀ v ∈ V, v < 2 ^ 27) :
    (rangeState start 0x1000#64).epmPages.length +
      (rangeState start 0x1000#64).lackingTables V ≤ smallEpm.epmPages := by
  rw [lackingTables_eq (Repr.of_initial (rangeState_initial start _)) hlt]
  have h0 := (Finset.card_filter_le (V.image (· / 512))
    fun q => AddressSpace.empty.tab 0 q = none).trans (Finset.card_image_le.trans hV)
  have h1 := (Finset.card_filter_le (V.image (· / 262144))
    fun q => AddressSpace.empty.tab 1 q = none).trans (Finset.card_image_le.trans hV)
  have hsum : AddressSpace.empty.lacking V ≤ 2 := Nat.add_le_add h0 h1
  show 1 + _ ≤ 8
  omega

/-- One page at 0x1000. -/
theorem untrusted_mapped_iff_small :
    let s := rangeState 0x1000#64 0x1000#64
    UntrustedMapped (exec (obtainUtm 0x20000#64 s.untrustedSize) s).2
        (exec loadUntrusted (exec (obtainUtm 0x20000#64 s.untrustedSize) s).2) ↔
      WholePages s.untrustedStart s.untrustedSize :=
  have h := untrusted_mapped_iff (rangeState_reachable 0x1000#64 0x1000#64) rfl smallEpm_block
    (by decide) (by decide) (fun n _ => rangeState_pageAt _ _ _)
  ⟨h.1, h.2 (rangeState_room _ (Finset.card_image_le.trans (by decide)) untrustedVpns_lt)⟩

/-- The last page of the address space is a range of one whole page, and
`loadUntrusted` returns without mapping it. -/
theorem last_page_not_mapped :
    ¬ ∀ (L : Layout) (s : Keystone) (utmMem : Vaddr), Reachable L s → L.utmPages = 0 →
      UtmBlock L utmMem s.untrustedSize → 0 < s.untrustedSize.toNat →
        s.untrustedStart.toNat + s.untrustedSize.toNat ≤ 2 ^ 64 →
          (∀ n, Touches s.untrustedStart s.untrustedSize n →
            s.pageAt (frameAddr n 0) = none) →
            s.epmPages.length +
                s.lackingTables (untrustedVpns s.untrustedStart s.untrustedSize) ≤ L.epmPages →
              UntrustedMapped (exec (obtainUtm utmMem s.untrustedSize) s).2
                (exec loadUntrusted (exec (obtainUtm utmMem s.untrustedSize) s).2) := by
  intro h
  let s := rangeState 0xfffffffffffff000#64 0x1000#64
  have hblock : UtmBlock smallEpm 0x20000#64 s.untrustedSize := smallEpm_block
  have hmapped := h smallEpm s 0x20000#64 (rangeState_reachable _ _) rfl hblock (by decide)
    (by decide) (fun n _ => rangeState_pageAt _ _ _)
    (rangeState_room _ (Finset.card_image_le.trans (by decide)) untrustedVpns_lt)
  have hinit : Repr smallEpm s AddressSpace.empty := Repr.of_initial (rangeState_initial _ _)
  have hkept := obtainUtm_keeps hinit rfl hblock
  obtain ⟨hstart, hsize⟩ := obtainUtm_range 0x20000#64 s.untrustedSize s
  -- its page would have to be mapped in the state the UTM was obtained in
  have hpage := hmapped.mapped (2 ^ 52 - 1) (by rw [hstart, hsize]; exact ⟨by decide, by decide⟩)
  rw [loadUntrusted_wraps (by rw [hstart, hsize]; decide) (by rw [hstart, hsize]; decide),
    pageAt_eq hkept] at hpage
  exact hpage rfl

end KeystoneSdk
