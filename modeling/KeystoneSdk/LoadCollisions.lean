/-
What the load sequence leaves in the page table.

Four parts of an enclave ask for pages: the runtime image, the enclave image, the
stack and the untrusted range.  `allocPage` takes a page that is mapped already
for success, so a page number that several parts ask for belongs to the first of
them, with its permissions and its bytes.

* `LoadPart` — the four parts, and what each of them gives to its pages;
* `findSome?_loadRequests` — the requests, part by part;
* **`load_first_come`** — every page number has what the first part that asks for
  it gives it, and nothing else is mapped;
* **`load_separate_iff`** — every part finds its own pages exactly when no two
  parts ask for the same page number.
-/
import KeystoneSdk.Placement

open ByteMemory StopM

namespace KeystoneSdk

/-- The parts of an enclave that ask for pages, in the order of the load. -/
inductive LoadPart
  | runtime
  | enclave
  | stack
  | untrusted
  deriving DecidableEq

namespace LoadPart

/-- The parts that are loaded before. -/
def before : LoadPart → List LoadPart
  | .runtime => []
  | .enclave => [.runtime]
  | .stack => [.runtime, .enclave]
  | .untrusted => [.runtime, .enclave, .stack]

/-- How a part's pages are mapped. -/
def mode : LoadPart → BitVec 32
  | .runtime => rtFull
  | .enclave => userFull
  | .stack => userNoexec
  | .untrusted => utmFull

/-- The flags of a part's page table entries. -/
def flags (p : LoadPart) : BitVec 64 := (modeFlags p.mode).getD 0

/-- Where a part's pages come from. -/
def list : LoadPart → FreeList
  | .untrusted => .utm
  | _ => .epm

/-- The flags tell the parts apart. -/
theorem flags_injective {p q : LoadPart}
    (h : (pteV ||| p.flags) &&& 1023#64 = (pteV ||| q.flags) &&& 1023#64) : p = q := by
  revert h
  cases p <;> cases q <;> decide

variable (runtimeFile enclaveFile : ELFFile) (range : BitVec 64 × BitVec 64)

/-- The page numbers a part asks for. -/
def pages : LoadPart → Finset ℕ
  | .runtime => runtimeFile.imagePages
  | .enclave => enclaveFile.imagePages
  | .stack => stackPages
  | .untrusted => untrustedVpns range.1 range.2

/-- The byte a part gives to an address of its pages. -/
def byteAt (va : Vaddr) : LoadPart → Option Byte
  | .runtime => runtimeFile.firstPageByte va
  | .enclave => enclaveFile.firstPageByte va
  | .stack => some 0
  | .untrusted => some 0

/-- The requests of a part. -/
def requests : LoadPart → List Request
  | .runtime => runtimeFile.dataRequests
  | .enclave => enclaveFile.dataRequests
  | .stack => stackRequests defaultStackStart defaultStackSize false
  | .untrusted => untrustedRequests range.1 range.2

end LoadPart

/-- The address is mapped the way the part maps its pages: with its flags, to a
page of its free list, and with its byte. -/
def Keystone.HasPage (L : Layout) (s : Keystone) (runtimeFile enclaveFile : ELFFile) (p : LoadPart)
    (va : Vaddr) : Prop :=
  ∃ fr : Frame, fr.list = p.list ∧ fr.Inside L ∧
    s.pteAt va = some (pteCreate (BitVec.ofNat 64 (fr.number L)) p.flags) ∧
      s.byteAt va = p.byteAt runtimeFile enclaveFile va

/-! ### What each part asks for -/

section Parts

variable {runtimeFile enclaveFile : ELFFile} {range : BitVec 64 × BitVec 64}

/-- What the requests give to page number `v` is what the part says. -/
structure Gives (runtimeFile enclaveFile : ELFFile) (p : LoadPart) (v : ℕ) (c : Content) :
    Prop where
  list : c.list = p.list
  flags : c.flags = p.flags
  bytes : ∀ va, vpn va = v → p.byteAt runtimeFile enclaveFile va = some (c.bytes (va.toNat % 4096))

theorem allocRun_content (l : FreeList) (mode : BitVec 32) (p k v : ℕ) :
    (allocRun l mode p k).findSome? (Request.content v) =
      if ∃ i < k, (p + i) % 2 ^ 27 = v then some ⟨l, (modeFlags mode).getD 0, fun _ => 0⟩
      else none := by
  have hgives : ∀ i, (Request.alloc (frameAddr (p + i) 0) l nullpage mode).content v =
      if (p + i) % 2 ^ 27 = v then some ⟨l, (modeFlags mode).getD 0, fun _ => 0⟩ else none := by
    intro i
    have hbytes : (if modeWrites mode then nullpage.bytes else fun _ => 0) = fun _ => 0 := by
      split <;> rfl
    rw [Request.content, hbytes, vpn_page]
  rw [allocRun, List.findSome?_map]
  split
  · rename_i h
    obtain ⟨i, hi, hv⟩ := h
    have hsome : ((List.range k).findSome? (Request.content v ∘ fun i =>
        .alloc (frameAddr (p + i) 0) l nullpage mode)).isSome := by
      refine List.findSome?_isSome_iff.mpr ⟨i, List.mem_range.mpr hi, ?_⟩
      rw [Function.comp_apply, hgives, if_pos hv]
      rfl
    obtain ⟨c, hc⟩ := Option.isSome_iff_exists.mp hsome
    obtain ⟨j, -, hj⟩ := List.exists_of_findSome?_eq_some hc
    rw [Function.comp_apply, hgives] at hj
    split at hj
    · rw [hc, ← hj]
    · cases hj
  · rename_i h
    refine List.findSome?_eq_none_iff.mpr fun i hi => ?_
    rw [Function.comp_apply, hgives, if_neg fun hv => h ⟨i, List.mem_range.mp hi, hv⟩]

/-- The requests of an image, page by page. -/
theorem ELFFile.Loadable.findSome? {elf : ELFFile} (h : elf.Loadable) (v : ℕ) :
    elf.dataRequests.findSome? (Request.content v) = (elf.pageFor v).map elf.contentFor := by
  have hstop : ∀ x ∈ elf.segmentPages, elf.requestFor x ≠ .stop .segfault := by
    intro x hx he
    have hreturns := (h.request hx).1
    rw [he] at hreturns
    exact hreturns
  rw [ELFFile.dataRequests_eq h.ends, List.findSome?_map]
  exact ELFFile.findSome?_eq_find? _ pageNumber v _ _ fun x hx =>
    ELFFile.requestFor_content (hstop x hx) v

theorem ELFFile.pageFor_isSome_iff {elf : ELFFile} {v : ℕ} :
    (elf.pageFor v).isSome ↔ v ∈ elf.imagePages := by
  rw [ELFFile.pageFor, List.find?_isSome, ELFFile.imagePages, List.mem_toFinset, List.mem_map]
  simp only [decide_eq_true_eq]

/-- What an image gives to its pages. -/
theorem ELFFile.contentFor_bytes {elf : ELFFile} {v : ℕ} {x : ElfPhdr × ℕ}
    (hx : elf.pageFor v = some x) {va : Vaddr} (hva : vpn va = v) :
    elf.firstPageByte va = some ((elf.contentFor x).bytes (va.toNat % 4096)) := by
  rw [ELFFile.firstPageByte, hva, hx, Option.map_some]
  exact congrArg some (pageSource_bytes _ x.1.pageOffset_lt (Nat.mod_lt _ (by decide))).symm

/-- The requests of an image give every page of the image its own. -/
theorem ELFFile.Loadable.gives {elf : ELFFile} (h : elf.Loadable) {p : LoadPart}
    (hmode : elf.getPageMode = p.mode) (hlist : p.list = .epm)
    (hbyte : ∀ va, p.byteAt runtimeFile enclaveFile va = elf.firstPageByte va) (v : ℕ) :
    (v ∉ elf.imagePages → elf.dataRequests.findSome? (Request.content v) = none) ∧
      (v ∈ elf.imagePages → ∃ c, elf.dataRequests.findSome? (Request.content v) = some c ∧
        Gives runtimeFile enclaveFile p v c) := by
  rw [h.findSome?, ← ELFFile.pageFor_isSome_iff]
  constructor
  · intro hv
    rw [Option.not_isSome_iff_eq_none.mp hv]
    rfl
  · intro hv
    obtain ⟨x, hx⟩ := Option.isSome_iff_exists.mp hv
    refine ⟨elf.contentFor x, by rw [hx, Option.map_some], hlist.symm, ?_, fun va hva => ?_⟩
    · rw [ELFFile.contentFor, hmode, LoadPart.flags]
    · rw [hbyte, ELFFile.contentFor_bytes hx hva]

/-- Consecutive pages of zeros. -/
theorem allocRun_gives {p : LoadPart}
    (hbyte : ∀ va, p.byteAt runtimeFile enclaveFile va = some 0) (n k v : ℕ) :
    ((¬ ∃ i < k, (n + i) % 2 ^ 27 = v) →
        (allocRun p.list p.mode n k).findSome? (Request.content v) = none) ∧
      ((∃ i < k, (n + i) % 2 ^ 27 = v) →
        ∃ c, (allocRun p.list p.mode n k).findSome? (Request.content v) = some c ∧
          Gives runtimeFile enclaveFile p v c) := by
  rw [allocRun_content]
  constructor
  · intro hv
    rw [if_neg hv]
  · intro hv
    rw [if_pos hv]
    exact ⟨_, rfl, rfl, rfl, fun va _ => hbyte va⟩

/-- The files `initFiles` hands over: a runtime and an enclave. -/
structure LoadableFiles (runtimeFile enclaveFile : ELFFile) (range : BitVec 64 × BitVec 64) :
    Prop where
  runtime : runtimeFile.Loadable
  enclave : enclaveFile.Loadable
  isRuntime : runtimeFile.isRuntime = true
  notRuntime : enclaveFile.isRuntime = false
  range : RangeEnds range

/-- What a part asks for, and gives. -/
theorem LoadPart.requests_give (h : LoadableFiles runtimeFile enclaveFile range) (p : LoadPart)
    (v : ℕ) :
    (v ∉ p.pages runtimeFile enclaveFile range →
        (p.requests runtimeFile enclaveFile range).findSome? (Request.content v) = none) ∧
      (v ∈ p.pages runtimeFile enclaveFile range →
        ∃ c, (p.requests runtimeFile enclaveFile range).findSome? (Request.content v) = some c ∧
          Gives runtimeFile enclaveFile p v c) := by
  cases p with
  | runtime =>
    have hmode : runtimeFile.getPageMode = rtFull := if_pos h.isRuntime
    exact h.runtime.gives (p := .runtime) hmode rfl (fun _ => rfl) v
  | enclave =>
    have hmode : enclaveFile.getPageMode = userFull :=
      if_neg fun hc => Bool.false_ne_true (h.notRuntime.symm.trans hc)
    exact h.enclave.gives (p := .enclave) hmode rfl (fun _ => rfl) v
  | stack =>
    show (v ∉ stackPages → (stackRequests _ _ _).findSome? _ = none) ∧
      (v ∈ stackPages → ∃ c, (stackRequests _ _ _).findSome? _ = some c ∧ _)
    rw [mem_stackPages, stackRequests_eq]
    exact allocRun_gives (p := .stack) (fun _ => rfl) 4194272 32 v
  | untrusted =>
    show (v ∉ untrustedVpns _ _ → (untrustedRequests _ _).findSome? _ = none) ∧
      (v ∈ untrustedVpns _ _ → ∃ c, (untrustedRequests _ _).findSome? _ = some c ∧ _)
    rw [mem_untrustedVpns, untrustedRequests_eq h.range]
    exact allocRun_gives (p := .untrusted) (fun _ => rfl) _ _ v

end Parts

theorem LoadPart.pages_lt {runtimeFile enclaveFile : ELFFile} {range : BitVec 64 × BitVec 64}
    (p : LoadPart) {v : ℕ} (hv : v ∈ p.pages runtimeFile enclaveFile range) : v < 134217728 := by
  have himage : ∀ {elf : ELFFile}, v ∈ elf.imagePages → v < 134217728 := by
    intro elf hv
    rw [ELFFile.imagePages, List.mem_toFinset] at hv
    obtain ⟨x, -, rfl⟩ := List.mem_map.mp hv
    exact Nat.mod_lt _ (by decide)
  cases p with
  | runtime => exact himage hv
  | enclave => exact himage hv
  | stack =>
    obtain ⟨i, -, rfl⟩ := (mem_stackPages v).mp hv
    exact Nat.mod_lt _ (by decide)
  | untrusted =>
    obtain ⟨i, -, rfl⟩ := (mem_untrustedVpns v).mp hv
    exact Nat.mod_lt _ (by decide)

/-! ### First come, first served -/

section Load

variable {runtimeFile enclaveFile : ELFFile} {range : BitVec 64 × BitVec 64}

theorem tableRequests_findSome? (elf : ELFFile) (v : ℕ) :
    elf.tableRequests.findSome? (Request.content v) = none :=
  List.findSome?_eq_none_iff.mpr (vspaceRequests_content _ _ v)

/-- The load sequence asks part by part. -/
theorem findSome?_loadRequests (v : ℕ) :
    (loadRequests runtimeFile enclaveFile range).findSome? (Request.content v) =
      [LoadPart.runtime, .enclave, .stack, .untrusted].findSome? fun p =>
        (p.requests runtimeFile enclaveFile range).findSome? (Request.content v) := by
  simp only [loadRequests, List.findSome?_append, tableRequests_findSome?, Option.none_or,
    LoadPart.requests, List.findSome?_cons, List.findSome?_nil]
  cases runtimeFile.dataRequests.findSome? (Request.content v) <;>
    cases enclaveFile.dataRequests.findSome? (Request.content v) <;>
    cases (stackRequests defaultStackStart defaultStackSize false).findSome? (Request.content v) <;>
    cases (untrustedRequests range.1 range.2).findSome? (Request.content v) <;> rfl

/-- The first part that asks for a page number gives it its page. -/
theorem loadRequests_first (h : LoadableFiles runtimeFile enclaveFile range) {p : LoadPart} {v : ℕ}
    (hv : v ∈ p.pages runtimeFile enclaveFile range)
    (hfirst : ∀ q ∈ p.before, v ∉ q.pages runtimeFile enclaveFile range) :
    ∃ c, (loadRequests runtimeFile enclaveFile range).findSome? (Request.content v) = some c ∧
      Gives runtimeFile enclaveFile p v c := by
  obtain ⟨c, hc, hgives⟩ := (p.requests_give h v).2 hv
  have hnone : ∀ q ∈ p.before,
      (q.requests runtimeFile enclaveFile range).findSome? (Request.content v) = none :=
    fun q hq => (q.requests_give h v).1 (hfirst q hq)
  refine ⟨c, ?_, hgives⟩
  rw [findSome?_loadRequests]
  cases p <;>
    simp only [LoadPart.before, List.mem_cons, List.not_mem_nil, or_false, forall_eq_or_imp,
      forall_eq] at hnone <;>
    simp only [List.findSome?_cons, hc, hnone]

theorem loadRequests_none (h : LoadableFiles runtimeFile enclaveFile range) {v : ℕ}
    (hv : ∀ p : LoadPart, v ∉ p.pages runtimeFile enclaveFile range) :
    (loadRequests runtimeFile enclaveFile range).findSome? (Request.content v) = none := by
  rw [findSome?_loadRequests]
  exact List.findSome?_eq_none_iff.mpr fun p _ => (p.requests_give h v).1 (hv p)

/-- The load of loadable files comes back. -/
theorem loadMeaning_returns (h : LoadableFiles runtimeFile enclaveFile range) (a : AddressSpace) :
    ∃ n b, exec (loadMeaning runtimeFile enclaveFile range) a = (.ok n, b) ∧
      exec (forM (loadRequests runtimeFile enclaveFile range) Request.apply) a = (.ok ⟨⟩, b) := by
  have hvalid := loadRequests_valid runtimeFile enclaveFile range
  have hreturns := loadRequests_returns h.runtime h.enclave h.range
  have hpart : ∀ rs : List Request, (∀ r ∈ rs, r ∈ loadRequests runtimeFile enclaveFile range) →
      ∀ b, ∃ c, exec (forM rs Request.apply) b = (.ok ⟨⟩, c) := fun rs hsub b =>
    ⟨_, Prod.ext (AddressSpace.run_returns (fun r hr => hvalid r (hsub r hr))
      (fun r hr => hreturns r (hsub r hr)) b) rfl⟩
  obtain ⟨b₁, h₁⟩ := hpart runtimeFile.tableRequests
    (fun r hr => by simp [loadRequests, hr]) a
  obtain ⟨b₂, h₂⟩ := hpart runtimeFile.dataRequests
    (fun r hr => by simp [loadRequests, hr]) b₁
  obtain ⟨b₃, h₃⟩ := hpart enclaveFile.tableRequests
    (fun r hr => by simp [loadRequests, hr]) b₂
  obtain ⟨b₄, h₄⟩ := hpart enclaveFile.dataRequests
    (fun r hr => by simp [loadRequests, hr]) b₃
  obtain ⟨b₅, h₅⟩ := hpart (stackRequests defaultStackStart defaultStackSize false)
    (fun r hr => by simp [loadRequests, hr]) b₄
  obtain ⟨b₆, h₆⟩ := hpart (untrustedRequests range.1 range.2)
    (fun r hr => by simp [loadRequests, hr]) b₅
  refine ⟨(b₁.epmUsed, b₃.epmUsed), b₆, ?_, ?_⟩
  · rw [loadMeaning, exec_bind_ok h₁, exec_bind_ok (exec_get b₁), exec_bind_ok h₂, exec_bind_ok h₃,
      exec_bind_ok (exec_get b₃), exec_bind_ok h₄, exec_bind_ok h₅, exec_bind_ok h₆, exec_pure]
  · rw [loadRequests, forM_append, exec_bind_ok h₁, forM_append, exec_bind_ok h₂, forM_append,
      exec_bind_ok h₃, forM_append, exec_bind_ok h₄, forM_append, exec_bind_ok h₅, h₆]

variable {L : Layout} {s : Keystone}

/-- **First come, first served**: a load with enough memory reports success.
Every page number a part asks for has the page of the first such part, and no
other page number is mapped. -/
theorem load_first_come (hs : Repr.Initial L s)
    (h : LoadableFiles runtimeFile enclaveFile s.range)
    (hepm : epmNeed runtimeFile enclaveFile s.range ≤ L.epmPages)
    (hutm : utmNeed runtimeFile enclaveFile s.range ≤ L.utmPages) (dataStart : Vaddr) :
    (∃ r, (exec (loadSequence runtimeFile enclaveFile dataStart) s).1 = .ok r ∧
        r.status = .keystoneSuccess) ∧
      ∀ va,
        ((∀ p : LoadPart, vpn va ∉ p.pages runtimeFile enclaveFile s.range) →
          (exec (loadSequence runtimeFile enclaveFile dataStart) s).2.pteAt va = none) ∧
        ∀ p : LoadPart, vpn va ∈ p.pages runtimeFile enclaveFile s.range →
          (∀ q ∈ p.before, vpn va ∉ q.pages runtimeFile enclaveFile s.range) →
            (exec (loadSequence runtimeFile enclaveFile dataStart) s).2.HasPage L runtimeFile
              enclaveFile p va := by
  have hin := (load_inBuffers_iff L s hs h.runtime h.enclave h.range dataStart).mpr ⟨hepm, hutm⟩
  obtain ⟨hend, hrepr⟩ :=
    loadSequence_represents (Repr.of_initial hs) runtimeFile enclaveFile dataStart hin
  obtain ⟨n, b, hx, hrun⟩ := loadMeaning_returns h AddressSpace.empty
  rw [hx] at hend hrepr
  refine ⟨⟨_, hend, rfl⟩, fun va => ?_⟩
  -- the first request for a page number decides what it is mapped to
  have hleaf := AddressSpace.run_leaf (loadRequests_valid _ _ _)
    (show AddressSpace.empty.leaf (vpn va) = none from rfl) hrun
  refine ⟨fun hnot => ?_, fun p hp hfirst => ?_⟩
  · rw [loadRequests_none h hnot] at hleaf
    rw [pteAt_eq hrepr, hleaf]
    rfl
  · obtain ⟨c, hc, hgives⟩ := loadRequests_first h hp hfirst
    rw [hc] at hleaf
    obtain ⟨lf, hl, hlist, hflags, hbytes⟩ := hleaf
    refine ⟨lf.frame, hlist.trans hgives.list, hrepr.leaf_inside hl, ?_, ?_⟩
    · rw [pteAt_eq hrepr, hl, Option.map_some, Leaf.pte, hflags, hgives.flags]
    · rw [byteAt_eq hrepr, hl, Option.map_some, hbytes, hgives.bytes va rfl]

/-! ### Collisions -/

/-- The flags of a page tell which part it belongs to. -/
theorem Keystone.HasPage.unique {p q : LoadPart} {va : Vaddr}
    (hp : s.HasPage L runtimeFile enclaveFile p va)
    (hq : s.HasPage L runtimeFile enclaveFile q va) : p = q := by
  obtain ⟨fr, -, -, hpte, -⟩ := hp
  obtain ⟨fr', -, -, hpte', -⟩ := hq
  have hlow := congrArg (· &&& 1023#64) (Option.some.inj (hpte.symm.trans hpte'))
  simp only [pteCreate_and_low (show (1023#64).toNat < 1024 by decide)] at hlow
  exact LoadPart.flags_injective hlow

/-- **Collisions are silent**: the load reports success in any case, and every
part finds its own pages at all its page numbers exactly when no two parts ask for
the same page number. -/
theorem load_separate_iff (hs : Repr.Initial L s)
    (h : LoadableFiles runtimeFile enclaveFile s.range)
    (hepm : epmNeed runtimeFile enclaveFile s.range ≤ L.epmPages)
    (hutm : utmNeed runtimeFile enclaveFile s.range ≤ L.utmPages) (dataStart : Vaddr) :
    (∀ (p : LoadPart) (va : Vaddr), vpn va ∈ p.pages runtimeFile enclaveFile s.range →
        (exec (loadSequence runtimeFile enclaveFile dataStart) s).2.HasPage L runtimeFile
          enclaveFile p va) ↔
      ∀ p q : LoadPart, p ≠ q → Disjoint (p.pages runtimeFile enclaveFile s.range)
        (q.pages runtimeFile enclaveFile s.range) := by
  obtain ⟨-, hload⟩ := load_first_come hs h hepm hutm dataStart
  constructor
  · intro hown p q hne
    refine Finset.disjoint_left.mpr fun v hp hq => hne ?_
    obtain ⟨va, rfl⟩ : ∃ va, vpn va = v := by
      refine ⟨frameAddr v 0, ?_⟩
      rw [vpn_frameAddr (by decide), Nat.mod_eq_of_lt (p.pages_lt hp)]
    exact (hown p va hp).unique (hown q va hq)
  · intro hdisjoint p va hp
    refine (hload va).2 p hp fun q hq hv => ?_
    have hne : p ≠ q := by
      rintro rfl
      revert hq
      cases p <;> decide
    exact Finset.disjoint_left.mp (hdisjoint p q hne) hp hv

end Load

/-! ### A small load -/

theorem smallFiles : LoadableFiles smallRuntime alignedElf (placedState 7).range where
  runtime := smallRuntime_loadable
  enclave := alignedElf_loadable
  isRuntime := rfl
  notRuntime := rfl
  range := by
    show RangeEnds (0x80000000#64, 0x2000#64)
    unfold RangeEnds
    decide

theorem smallFiles_epmNeed :
    epmNeed smallRuntime alignedElf (placedState 7).range ≤ (placedLayout 7).epmPages := by
  show epmNeed smallRuntime alignedElf (0x80000000#64, 0x2000#64) ≤ 64
  rw [smallLoad_need]
  decide

theorem smallFiles_utmNeed :
    utmNeed smallRuntime alignedElf (placedState 7).range ≤ (placedLayout 7).utmPages := by
  show utmNeed smallRuntime alignedElf (0x80000000#64, 0x2000#64) ≤ 2
  decide +kernel

theorem load_first_come_small :
    (exec (loadSequence smallRuntime alignedElf 0#64) (placedState 7)).2.pteAt 0x5000#64 = none ∧
      (exec (loadSequence smallRuntime alignedElf 0#64) (placedState 7)).2.HasPage (placedLayout 7)
        smallRuntime alignedElf .enclave 0x10001#64 := by
  obtain ⟨-, hload⟩ := load_first_come (placedState_initial 7) smallFiles smallFiles_epmNeed
    smallFiles_utmNeed 0#64
  refine ⟨(hload _).1 fun p => ?_, (hload _).2 .enclave ?_ fun q hq => ?_⟩
  · show vpn 0x5000#64 ∉ p.pages smallRuntime alignedElf (0x80000000#64, 0x2000#64)
    cases p <;> decide +kernel
  · show vpn 0x10001#64 ∈ alignedElf.imagePages
    decide +kernel
  · obtain rfl := List.mem_singleton.mp hq
    show vpn 0x10001#64 ∉ smallRuntime.imagePages
    decide +kernel

theorem load_separate_iff_small :
    (∀ (p : LoadPart) (va : Vaddr), vpn va ∈ p.pages smallRuntime alignedElf (placedState 7).range →
        (exec (loadSequence smallRuntime alignedElf 0#64) (placedState 7)).2.HasPage (placedLayout 7)
          smallRuntime alignedElf p va) ↔
      ∀ p q : LoadPart, p ≠ q → Disjoint (p.pages smallRuntime alignedElf (placedState 7).range)
        (q.pages smallRuntime alignedElf (placedState 7).range) :=
  load_separate_iff (placedState_initial 7) smallFiles smallFiles_epmNeed smallFiles_utmNeed 0#64

end KeystoneSdk
