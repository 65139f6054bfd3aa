/-
What the load sequence makes of two empty buffers.

Each producer is a list of requests that does not depend on the buffers, so the
whole sequence has one meaning for all of them: the address space it builds,
and how many EPM pages were in use when each image set its `data_start`.

* `Request.keeps`, `runAll_keeps` — no request changes anything but the memory
  and the two free lists;
* `Loading` — the meaning of the sequence, producer by producer;
* **`loadSequence_represents`** — a run inside the buffers is this meaning.
-/
import KeystoneSdk.LoadRequests

open ByteMemory StopM

namespace KeystoneSdk

/-! ### What a request leaves alone -/

section Keeps

variable {β : Type} {g : Keystone → β} (hmem : ∀ (s : Keystone) (m : Mem), g { s with mem := m } = g s)
  (hpop : ∀ s : Keystone, g (s.popPage .epm) = g s)

/-- `g` is what it was. -/
def Keeps (g : Keystone → β) (s s' : Keystone) : Prop := g s' = g s

theorem Keeps.refl (s : Keystone) : Keeps g s s := rfl

theorem Keeps.trans (s₁ s₂ s₃ : Keystone) (h : Keeps g s₁ s₂) (h' : Keeps g s₂ s₃) :
    Keeps g s₁ s₃ := Eq.trans h' h

include hmem

theorem writePte_keeps (pte : Addr) (v : Pte) : Grows (Keeps g) (writePte pte v) :=
  fun s => hmem s _

theorem copyInto_keeps (src : HostPtr) (mode : BitVec 32) (page : Addr) :
    Grows (Keeps g) (copyInto src mode page) := by
  rw [copyInto]
  split
  · refine Grows.bind Keeps.trans ?_ fun _ => grows_pure Keeps.refl _
    rw [writeMem]
    split
    · exact grows_modify fun s => hmem s _
    · exact grows_throw Keeps.refl _
  · exact grows_pure Keeps.refl _

include hpop in
theorem eptWalkInternal_keeps (n : ℕ) (va : Vaddr) (create : Bool) :
    Grows (Keeps g) (eptWalkInternal n va create) := by
  induction n generalizing create with
  | zero => exact grows_throw Keeps.refl _
  | succ n ih =>
    have hloop : ∀ (missing : Addr → Loader (Option Addr)),
        (∀ pte, Grows (Keeps g) (missing pte)) → ∀ i t,
          Grows (Keeps g) (eptWalkLoop va missing i t) := by
      intro missing hm i
      induction i with
      | zero => exact fun t => grows_pure Keeps.refl _
      | succ i ihi =>
        intro t
        rw [eptWalkLoop]
        refine Grows.bind Keeps.trans (fun s => rfl) fun v => ?_
        split
        · exact hm _
        · exact ihi _
    rw [eptWalkInternal]
    refine (grows_get Keeps.refl).bind Keeps.trans fun s => hloop _ (fun pte => ?_) _ _
    cases create with
    | false => exact grows_pure Keeps.refl _
    | true =>
      refine (grows_get Keeps.refl).bind Keeps.trans fun s => ?_
      refine (writePte_keeps hmem _ _).bind Keeps.trans fun _ => ?_
      exact (grows_modify hpop).bind Keeps.trans fun _ => ih true

theorem allocAt_keeps {l : FreeList} (hl : ∀ s : Keystone, g (s.popPage l) = g s) (src : HostPtr)
    (mode : BitVec 32) (r : Option Addr) : Grows (Keeps g) (allocAt l src mode r) := by
  cases r with
  | none => exact grows_throw Keeps.refl _
  | some pte =>
    refine Grows.bind Keeps.trans (fun s => rfl) fun v => ?_
    split
    · exact grows_pure Keeps.refl _
    · refine (grows_get Keeps.refl).bind Keeps.trans fun s => ?_
      refine (grows_modify hl).bind Keeps.trans fun _ => ?_
      cases modeFlags mode with
      | none => exact grows_pure Keeps.refl _
      | some flags =>
        exact (writePte_keeps hmem _ _).bind Keeps.trans fun _ => copyInto_keeps hmem src mode _

include hpop in
theorem Request.keeps {r : Request}
    (hr : ∀ va l src mode, r = .alloc va l src mode → ∀ s : Keystone, g (s.popPage l) = g s) :
    Grows (Keeps g) r.run := by
  have hwalk := fun va => eptWalkInternal_keeps hmem hpop 3 va true
  cases r with
  | walk va => exact (hwalk va).bind Keeps.trans fun _ => grows_pure Keeps.refl _
  | alloc va l src mode =>
    rw [Request.run, allocPage_eq]
    refine Grows.bind Keeps.trans ?_ fun _ => grows_pure Keeps.refl _
    exact (hwalk va).bind Keeps.trans (allocAt_keeps hmem (hr va l src mode rfl) src mode)
  | stop reason => exact grows_throw Keeps.refl _

include hpop in
/-- What the memory and the free lists that are drawn from do not change is what
it was. -/
theorem runAll_keeps {rs : List Request}
    (hr : ∀ va l src mode, .alloc va l src mode ∈ rs → ∀ s : Keystone, g (s.popPage l) = g s)
    (s : Keystone) : g (exec (runAll rs) s).2 = g s := by
  refine forM_preserves (P := fun t => g t = g s) rs (fun r hmemr t ht => ?_) rfl
  have hkeeps : Grows (Keeps g) r.run :=
    Request.keeps hmem hpop fun va l src mode he => hr va l src mode (he ▸ hmemr)
  exact Eq.trans (hkeeps t) ht

end Keeps

/-- The untrusted range. -/
def Keystone.range (s : Keystone) : BitVec 64 × BitVec 64 := (s.untrustedStart, s.untrustedSize)

theorem setMem_range (s : Keystone) (m : Mem) : Keystone.range { s with mem := m } = s.range := rfl

theorem popPage_range (s : Keystone) (l : FreeList) : (s.popPage l).range = s.range := by
  cases l <;> simp [Keystone.popPage, Keystone.range]

theorem runAll_range (rs : List Request) (s : Keystone) :
    (exec (runAll rs) s).2.range = s.range :=
  runAll_keeps setMem_range (fun s => popPage_range s .epm) (fun _ l _ _ _ s => popPage_range s l) s

/-! ### The sequence -/

/-- The requests of the load sequence, in their order. -/
def loadRequests (runtimeFile enclaveFile : ELFFile) (range : BitVec 64 × BitVec 64) :
    List Request :=
  runtimeFile.tableRequests ++ (runtimeFile.dataRequests ++ (enclaveFile.tableRequests ++
    (enclaveFile.dataRequests ++ (stackRequests defaultStackStart defaultStackSize false ++
      untrustedRequests range.1 range.2))))

/-- What the load sequence means: how many EPM pages are in use when an image
sets its `data_start`, and the address space it leaves behind. -/
def loadMeaning (runtimeFile enclaveFile : ELFFile) (range : BitVec 64 × BitVec 64) :
    StopM Stop AddressSpace (ℕ × ℕ) := do
  forM runtimeFile.tableRequests Request.apply
  let a₁ ← get
  forM runtimeFile.dataRequests Request.apply
  forM enclaveFile.tableRequests Request.apply
  let a₂ ← get
  forM enclaveFile.dataRequests Request.apply
  forM (stackRequests defaultStackStart defaultStackSize false) Request.apply
  forM (untrustedRequests range.1 range.2) Request.apply
  pure (a₁.epmUsed, a₂.epmUsed)

section States

variable {ε σ ι α : Type} {f : ι → StopM ε σ PUnit} {l l' : List ι} {m : StopM ε σ α}
  {P : σ → Prop}

/-- What follows a list of steps, when it ends where some more steps end. -/
theorem state_then (hkeep : ∀ s, P s → P (exec (forM l f) s).2)
    (h : ∀ s, P s → (exec m s).2 = (exec (forM l' f) s).2) (s : σ) (hs : P s) :
    (exec (forM l f >>= fun _ => m) s).2 = (exec (forM (l ++ l') f) s).2 := by
  have hrest := h _ (hkeep s hs)
  rw [forM_append, exec_bind, exec_bind]
  rcases hx : exec (forM l f) s with ⟨r, t⟩
  rw [hx] at hrest
  cases r with
  | error e => rfl
  | ok u => exact hrest

theorem state_last (h : ∀ s, (exec m s).2 = s) (s : σ) :
    (exec (forM l f >>= fun _ => m) s).2 = (exec (forM l f) s).2 := by
  rw [exec_bind]
  rcases exec (forM l f) s with ⟨r, t⟩
  cases r with
  | error e => rfl
  | ok u => exact h t

/-- A run that returned has returned at every step. -/
theorem exec_bind_returned {β : Type} {m : StopM ε σ α} {g : α → StopM ε σ β} {s s' : σ} {b : β}
    (h : exec (m >>= g) s = (.ok b, s')) :
    ∃ x t, exec m s = (.ok x, t) ∧ exec (g x) t = (.ok b, s') := by
  rw [exec_bind] at h
  rcases hx : exec m s with ⟨r, t⟩
  rw [hx] at h
  cases r with
  | error e => cases h
  | ok x => exact ⟨x, t, rfl, h⟩

end States

/-- **The load sequence ends where its requests end.** -/
theorem loadSequence_state (runtimeFile enclaveFile : ELFFile) (dataStart : Vaddr) (s : Keystone) :
    (exec (loadSequence runtimeFile enclaveFile dataStart) s).2 =
      (exec (runAll (loadRequests runtimeFile enclaveFile s.range)) s).2 := by
  have hkeep : ∀ (rs : List Request) (t : Keystone), t.range = s.range →
      (exec (runAll rs) t).2.range = s.range :=
    fun rs t ht => (runAll_range rs t).trans ht
  rw [loadSequence_eq]
  refine state_then (hkeep _) (fun t₁ h₁ => ?_) s rfl
  rw [exec_bind_ok (exec_get t₁)]
  refine state_then (hkeep _) (state_then (hkeep _) fun t₃ h₃ => ?_) t₁ h₁
  rw [exec_bind_ok (exec_get t₃)]
  refine state_then (hkeep _) (state_then (hkeep _) fun t₅ h₅ => ?_) t₃ h₃
  rw [exec_bind_ok (exec_get t₅)]
  have huntrusted : untrustedRequests t₅.untrustedStart t₅.untrustedSize =
      untrustedRequests s.range.1 s.range.2 := by
    rw [← h₅]
    rfl
  rw [huntrusted]
  exact state_last (fun t => rfl) t₅

/-- The EPM pages in use only grow. -/
def UsedGrow (a b : AddressSpace) : Prop := a.epmUsed ≤ b.epmUsed

theorem UsedGrow.refl (a : AddressSpace) : UsedGrow a a := le_rfl

theorem UsedGrow.trans (a b c : AddressSpace) (h : UsedGrow a b) (h' : UsedGrow b c) :
    UsedGrow a c := Nat.le_trans h h'

theorem touch_usedGrow (v : ℕ) (a : AddressSpace) : UsedGrow a (a.touch v) :=
  AddressSpace.epmUsed_le_touch v

theorem Request.apply_usedGrow (r : Request) : Grows UsedGrow r.apply := by
  cases r with
  | walk va => exact grows_modify (touch_usedGrow _)
  | stop reason => exact grows_throw UsedGrow.refl _
  | alloc va l src mode =>
    refine (grows_modify (touch_usedGrow _)).bind UsedGrow.trans fun _ => ?_
    refine (grows_get UsedGrow.refl).bind UsedGrow.trans fun a => ?_
    split
    · refine Grows.bind UsedGrow.trans (grows_modify fun a => ?_) fun _ => ?_
      · cases l with
        | epm => exact Nat.le_succ _
        | utm => exact le_rfl
      · split
        · split
          · exact grows_modify fun a => UsedGrow.refl a
          · exact grows_throw UsedGrow.refl _
        · exact grows_pure UsedGrow.refl _
    · exact grows_pure UsedGrow.refl _

theorem run_usedGrow (rs : List Request) : Grows UsedGrow (forM rs Request.apply) :=
  Grows.forM UsedGrow.refl UsedGrow.trans Request.apply_usedGrow rs

/-- The images start inside what the whole sequence uses. -/
theorem loadMeaning_used {runtimeFile enclaveFile : ELFFile} {range : BitVec 64 × BitVec 64}
    {a b : AddressSpace} {n : ℕ × ℕ}
    (h : exec (loadMeaning runtimeFile enclaveFile range) a = (.ok n, b)) :
    n.1 ≤ n.2 ∧ n.2 ≤ b.epmUsed := by
  have hgrow : ∀ {rs : List Request} {x y : AddressSpace} {u : PUnit},
      exec (forM rs Request.apply) x = (.ok u, y) → x.epmUsed ≤ y.epmUsed := by
    intro rs x y u hx
    have hle := run_usedGrow rs x
    rwa [hx] at hle
  obtain ⟨_, a₁, _, h⟩ := exec_bind_returned h
  rw [exec_bind_ok (exec_get a₁)] at h
  obtain ⟨_, a₂, hdata, h⟩ := exec_bind_returned h
  obtain ⟨_, a₃, htables, h⟩ := exec_bind_returned h
  rw [exec_bind_ok (exec_get a₃)] at h
  obtain ⟨_, a₄, hdata', h⟩ := exec_bind_returned h
  obtain ⟨_, a₅, hstack, h⟩ := exec_bind_returned h
  obtain ⟨_, a₆, huntrusted, h⟩ := exec_bind_returned h
  cases h
  exact ⟨(hgrow hdata).trans (hgrow htables),
    ((hgrow hdata').trans (hgrow hstack)).trans (hgrow huntrusted)⟩

section Represented

variable {L : Layout} {s : Keystone} {a : AddressSpace} {α β : Type}

/-- The two computations end alike, the first in a state that represents where
the second ends. -/
def EndAlike (L : Layout) (φ : β → α) (r : Except Stop α × Keystone)
    (r' : Except Stop β × AddressSpace) : Prop := r.1 = r'.1.map φ ∧ Repr L r.2 r'.2

/-- Requests, and what comes after them. -/
theorem represents_bind (hr : Repr L s a) {rs : List Request} (hv : ∀ r ∈ rs, r.Valid)
    {f : Loader α} (hf : Grows LogsGrow f) {f' : StopM Stop AddressSpace β} {φ : β → α}
    (hrest : ∀ t b, Repr L t b → t.range = s.range → InBuffers L (exec f t).2 →
      EndAlike L φ (exec f t) (exec f' b))
    (hin : InBuffers L (exec (runAll rs >>= fun _ => f) s).2) :
    EndAlike L φ (exec (runAll rs >>= fun _ => f) s)
      (exec (forM rs Request.apply >>= fun _ => f') a) := by
  have hin₁ := hin.before (Grows.after LogsGrow.refl (runAll rs) (fun _ => hf) s)
  obtain ⟨hend, hr₁⟩ := run_represents hr hv hin₁
  have hrange := runAll_range rs s
  rw [exec_bind] at hin ⊢
  rw [exec_bind]
  rcases hx : exec (runAll rs) s with ⟨r, t⟩
  rcases hy : exec (forM rs Request.apply) a with ⟨r', b⟩
  rw [hx] at hend hr₁ hrange hin
  rw [hy] at hend hr₁
  obtain rfl : r = r' := hend
  cases r with
  | error e => exact ⟨rfl, hr₁⟩
  | ok u => exact hrest t b hr₁ hrange hin

theorem grows_then (rs : List Request) {f : Loader α} (hf : Grows LogsGrow f) :
    Grows LogsGrow (runAll rs >>= fun _ => f) :=
  (grows_runAll rs).bind LogsGrow.trans fun _ => hf

theorem grows_reading {f : Keystone → Loader α} (hf : ∀ s, Grows LogsGrow (f s)) :
    Grows LogsGrow (get >>= f) :=
  (grows_get LogsGrow.refl).bind LogsGrow.trans hf

/-- **A run stays inside the buffers exactly when its meaning fits.** -/
theorem run_inBuffers_iff (hr : Repr L s a) {rs : List Request} (hv : ∀ r ∈ rs, r.Valid) :
    InBuffers L (exec (runAll rs) s).2 ↔ (exec (forM rs Request.apply) a).2.Fits L :=
  ⟨fun hin => (run_represents hr hv hin).2.fits,
    fun hfit => ((requests_simulate L rs hv).good s a hr hfit).2.inBuffers⟩

theorem loadRequests_valid (runtimeFile enclaveFile : ELFFile) (range : BitVec 64 × BitVec 64) :
    ∀ r ∈ loadRequests runtimeFile enclaveFile range, r.Valid := by
  intro r hr
  simp only [loadRequests, List.mem_append] at hr
  rcases hr with hr | hr | hr | hr | hr | hr
  · exact runtimeFile.tableRequests_valid r hr
  · exact runtimeFile.dataRequests_valid r hr
  · exact enclaveFile.tableRequests_valid r hr
  · exact enclaveFile.dataRequests_valid r hr
  · exact stackLoopRequests_valid _ _ _ r hr
  · exact untrustedLoopRequests_valid _ _ _ r hr

theorem loadSequence_inBuffers_iff (hr : Repr L s a) (runtimeFile enclaveFile : ELFFile)
    (dataStart : Vaddr) :
    InBuffers L (exec (loadSequence runtimeFile enclaveFile dataStart) s).2 ↔
      (exec (forM (loadRequests runtimeFile enclaveFile s.range) Request.apply) a).2.Fits L := by
  rw [loadSequence_state]
  exact run_inBuffers_iff hr (loadRequests_valid _ _ _)

/-- What the sequence returns, in a layout. -/
def resultAt (L : Layout) (n : ℕ × ℕ) : LoadResult where
  status := .keystoneSuccess
  runtimeData := frameAddr (L.epmFrame + n.1) 0
  userData := frameAddr (L.epmFrame + n.2) 0

/-- **The load sequence is its meaning**, as long as it stays inside the
buffers. -/
theorem loadSequence_represents (hr : Repr L s a) (runtimeFile enclaveFile : ELFFile)
    (dataStart : Vaddr)
    (hin : InBuffers L (exec (loadSequence runtimeFile enclaveFile dataStart) s).2) :
    EndAlike L (resultAt L) (exec (loadSequence runtimeFile enclaveFile dataStart) s)
      (exec (loadMeaning runtimeFile enclaveFile s.range) a) := by
  have hstack : ∀ r ∈ stackRequests defaultStackStart defaultStackSize false, r.Valid :=
    stackLoopRequests_valid _ _ _
  rw [loadSequence_eq] at hin ⊢
  rw [loadMeaning]
  refine represents_bind hr runtimeFile.tableRequests_valid (grows_reading fun _ =>
    grows_then _ (grows_then _ (grows_reading fun _ => grows_then _ (grows_then _
      (grows_reading fun _ => grows_then _ (grows_pure LogsGrow.refl _)))))) ?_ hin
  intro t₁ b₁ hr₁ hrange₁ hin₁
  rw [exec_bind_ok (exec_get t₁)] at hin₁ ⊢
  rw [exec_bind_ok (exec_get b₁)]
  refine represents_bind hr₁ runtimeFile.dataRequests_valid (grows_then _ (grows_reading fun _ =>
    grows_then _ (grows_then _ (grows_reading fun _ => grows_then _
      (grows_pure LogsGrow.refl _))))) ?_ hin₁
  intro t₂ b₂ hr₂ hrange₂ hin₂
  refine represents_bind hr₂ enclaveFile.tableRequests_valid (grows_reading fun _ =>
    grows_then _ (grows_then _ (grows_reading fun _ => grows_then _
      (grows_pure LogsGrow.refl _)))) ?_ hin₂
  intro t₃ b₃ hr₃ hrange₃ hin₃
  rw [exec_bind_ok (exec_get t₃)] at hin₃ ⊢
  rw [exec_bind_ok (exec_get b₃)]
  refine represents_bind hr₃ enclaveFile.dataRequests_valid (grows_then _ (grows_reading fun _ =>
    grows_then _ (grows_pure LogsGrow.refl _))) ?_ hin₃
  intro t₄ b₄ hr₄ hrange₄ hin₄
  refine represents_bind hr₄ hstack (grows_reading fun _ =>
    grows_then _ (grows_pure LogsGrow.refl _)) ?_ hin₄
  intro t₅ b₅ hr₅ hrange₅ hin₅
  rw [exec_bind_ok (exec_get t₅)] at hin₅ ⊢
  -- the untrusted range is still the one of the start
  have hrange : t₅.range = s.range := by
    rw [hrange₅, hrange₄, hrange₃, hrange₂, hrange₁]
  have huntrusted : untrustedRequests t₅.untrustedStart t₅.untrustedSize =
      untrustedRequests s.range.1 s.range.2 := by
    rw [← hrange]
    rfl
  rw [huntrusted] at hin₅ ⊢
  refine represents_bind hr₅ (untrustedLoopRequests_valid _ _ _) (grows_pure LogsGrow.refl _)
    ?_ hin₅
  intro t₆ b₆ hr₆ hrange₆ hin₆
  refine ⟨?_, hr₆⟩
  rw [exec_pure, exec_pure, hr₁.epmFree, hr₃.epmFree]
  rfl

end Represented

end KeystoneSdk
