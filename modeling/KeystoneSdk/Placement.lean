/-
The measurement does not depend on where the enclave lies.

Two buffers that hold the same address space at different places have tables
with different entries; every physical address and every boundary differs.
The walk of `validate_and_hash_epm` only compares pages with boundaries and
with pages of the same buffer, and feeds the hash virtual addresses and
contents, so both walks take the same branches.

* `Moved`, `SamePage`, `WalkState.Same` — the two runs side by side;
* `validateLeaf_same`, `validateAndHashEpm_same` — a page, and a table with all
  below it;
* **`measurement_placement`** — the load sequence and the measurement, from two
  pairs of buffers.
-/
import KeystoneSdk.LoadPages
import KeystoneSdk.HashedPages

open ByteMemory StopM

namespace KeystoneSdk

/-- Two places for buffers of the same sizes, none of which ends at the top of
the physical addresses. -/
structure Moved (L L' : Layout) : Prop where
  epmPages : L'.epmPages = L.epmPages
  utmPages : L'.utmPages = L.utmPages
  epm_lt : L.epmFrame + L.epmPages < 2 ^ 52
  epm_lt' : L'.epmFrame + L'.epmPages < 2 ^ 52
  utm_lt : L.utmFrame + L.utmPages < 2 ^ 52
  utm_lt' : L'.utmFrame + L'.utmPages < 2 ^ 52

/-- The regions of an enclave whose image data starts at EPM page `n.1`, whose
enclave data starts at `n.2`, and that has `used` EPM pages in use. -/
def regionsAt (L : Layout) (n : ℕ × ℕ) (used : ℕ) (range : BitVec 64 × BitVec 64) :
    KeystoneHashEnclave where
  epmPaddr := frameAddr L.epmFrame 0
  epmSize := BitVec.ofNat 64 (4096 * L.epmPages)
  utmPaddr := L.utmBase
  utmSize := range.2
  runtimePaddr := frameAddr (L.epmFrame + n.1) 0
  userPaddr := frameAddr (L.epmFrame + n.2) 0
  freePaddr := frameAddr (L.epmFrame + used) 0
  untrustedPtr := range.1
  untrustedSize := range.2

section Regions

variable {L : Layout} {n : ℕ × ℕ} {used : ℕ} {range : BitVec 64 × BitVec 64}

/-- Pages are in the order of their frames. -/
theorem frameAddr_le_iff {p q : ℕ} (hp : p < 2 ^ 52) (hq : q < 2 ^ 52) :
    frameAddr p 0 ≤ frameAddr q 0 ↔ p ≤ q := by
  rw [BitVec.le_def, frameAddr_toNat hp (by decide), frameAddr_toNat hq (by decide)]
  omega

theorem frameAddr_lt_iff {p q : ℕ} (hp : p < 2 ^ 52) (hq : q < 2 ^ 52) :
    frameAddr p 0 < frameAddr q 0 ↔ p < q := by
  rw [BitVec.lt_def, frameAddr_toNat hp (by decide), frameAddr_toNat hq (by decide)]
  omega

/-- The EPM frame with number `k`. -/
def Frame.isEpm : Frame → (ℕ → Bool) → Bool
  | .epm k, p => p k
  | .utm _, _ => false

/-- The UTM frame with number `j`. -/
def Frame.isUtm : Frame → (ℕ → Bool) → Bool
  | .epm _, _ => false
  | .utm j, p => p j

/-- A range of EPM pages, as addresses. -/
theorem between_epm (hlt : L.epmFrame + L.epmPages < 2 ^ 52) {fr : Frame} (hin : fr.Inside L)
    {x y : ℕ} (hx : x ≤ L.epmPages) (hy : y ≤ L.epmPages) :
    (frameAddr (L.epmFrame + x) 0 ≤ frameAddr (fr.number L) 0 &&
      frameAddr (fr.number L) 0 < frameAddr (L.epmFrame + y) 0 : Bool) =
      fr.isEpm fun k => x ≤ k && k < y := by
  have hnumber := hin.number_lt
  rw [Bool.eq_iff_iff, Bool.and_eq_true, decide_eq_true_eq, decide_eq_true_eq,
    frameAddr_le_iff (by omega) hnumber, frameAddr_lt_iff hnumber (by omega)]
  cases fr with
  | epm k =>
    simp only [Frame.number, Frame.isEpm, Bool.and_eq_true, decide_eq_true_eq]
    omega
  | utm j =>
    -- a page of the UTM is no page of the EPM
    simp only [Frame.number, Frame.isEpm, Bool.false_eq_true, iff_false]
    intro h
    exact L.disjoint (L.utmFrame + j - L.epmFrame) j (by omega) hin (by omega)

theorem mapInEpm_regionsAt (hlt : L.epmFrame + L.epmPages < 2 ^ 52) {fr : Frame}
    (hin : fr.Inside L) :
    (regionsAt L n used range).mapInEpm (frameAddr (fr.number L) 0) =
      fr.isEpm fun k => 0 ≤ k && k < L.epmPages := by
  have hend : frameAddr L.epmFrame 0 + BitVec.ofNat 64 (4096 * L.epmPages) =
      frameAddr (L.epmFrame + L.epmPages) 0 := by
    rw [frameAddr, frameAddr, ← BitVec.ofNat_add]
    congr 1
    omega
  have hbetween := between_epm hlt hin (Nat.zero_le L.epmPages) le_rfl
  rw [← hend] at hbetween
  exact hbetween

theorem inRuntime_regionsAt (hlt : L.epmFrame + L.epmPages < 2 ^ 52) {fr : Frame}
    (hin : fr.Inside L) (h₁ : n.1 ≤ L.epmPages) (h₂ : n.2 ≤ L.epmPages) :
    (regionsAt L n used range).inRuntime (frameAddr (fr.number L) 0) =
      fr.isEpm fun k => n.1 ≤ k && k < n.2 :=
  between_epm hlt hin h₁ h₂

theorem inUser_regionsAt (hlt : L.epmFrame + L.epmPages < 2 ^ 52) {fr : Frame}
    (hin : fr.Inside L) (h₂ : n.2 ≤ L.epmPages) (hused : used ≤ L.epmPages) :
    (regionsAt L n used range).inUser (frameAddr (fr.number L) 0) =
      fr.isEpm fun k => n.2 ≤ k && k < used :=
  between_epm hlt hin h₂ hused

theorem mapInUtm_regionsAt (hlt : L.utmFrame + L.utmPages < 2 ^ 52)
    (hsize : range.2.toNat ≤ 4096 * L.utmPages) {fr : Frame} (hin : fr.Inside L) :
    (regionsAt L n used range).mapInUtm (frameAddr (fr.number L) 0) =
      fr.isUtm fun j => 4096 * j < range.2.toNat := by
  have hnumber := hin.number_lt
  rcases Nat.eq_zero_or_pos L.utmPages with hzero | hpos
  · -- no UTM: no page lies in it
    have hrange : range.2 = 0#64 := BitVec.eq_of_toNat_eq (by simp; omega)
    have hempty : ∀ p : Paddr, (L.utmBase ≤ p && p < L.utmBase + range.2 : Bool) = false := by
      intro p
      rw [hrange, BitVec.add_zero, Bool.and_eq_false_iff, decide_eq_false_iff_not,
        decide_eq_false_iff_not, BitVec.le_def, BitVec.lt_def]
      omega
    cases fr with
    | epm k => exact hempty _
    | utm j =>
      rw [Frame.Inside, hzero] at hin
      exact absurd hin (Nat.not_lt_zero j)
  · have hbase := L.utmBase_eq hpos
    have hend : (L.utmBase + range.2).toNat = 4096 * L.utmFrame + range.2.toNat := by
      rw [hbase, BitVec.toNat_add, frameAddr_toNat (by omega) (by decide)]
      omega
    have hstart : L.utmBase.toNat = 4096 * L.utmFrame := by
      rw [hbase, frameAddr_toNat (by omega) (by decide), Nat.add_zero]
    have hpage : (frameAddr (fr.number L) 0).toNat = 4096 * fr.number L := by
      rw [frameAddr_toNat hnumber (by decide), Nat.add_zero]
    show (L.utmBase ≤ frameAddr (fr.number L) 0 &&
      frameAddr (fr.number L) 0 < L.utmBase + range.2 : Bool) = _
    rw [Bool.eq_iff_iff, Bool.and_eq_true, decide_eq_true_eq, decide_eq_true_eq, BitVec.le_def,
      BitVec.lt_def, hend, hstart, hpage]
    cases fr with
    | utm j =>
      simp only [Frame.number, Frame.isUtm, decide_eq_true_eq]
      omega
    | epm k =>
      simp only [Frame.number, Frame.isUtm, Bool.false_eq_true, iff_false]
      intro h
      exact L.disjoint k (L.epmFrame + k - L.utmFrame) hin (by omega) (by omega)

end Regions

/-! ### Two runs side by side -/

/-- One EPM page in the two buffers, or no page yet. -/
inductive SamePage (L L' : Layout) : Paddr → Paddr → Prop
  | none : SamePage L L' 0#64 0#64
  | page {k : ℕ} (hk : k < L.epmPages) :
    SamePage L L' (frameAddr (L.epmFrame + k) 0) (frameAddr (L'.epmFrame + k) 0)

/-- The hash was fed the same bytes, and the last pages are the same. -/
structure WalkState.Same (L L' : Layout) (st st' : WalkState) : Prop where
  hashed : st'.hashed = st.hashed
  runtime : SamePage L L' st.runtimeMaxSeen st'.runtimeMaxSeen
  user : SamePage L L' st.userMaxSeen st'.userMaxSeen

/-- The same answer, and the same state. -/
def SameResult {γ : Type} (L L' : Layout) (r r' : γ × WalkState) : Prop :=
  r'.1 = r.1 ∧ r.2.Same L L' r'.2

theorem SameResult.hashed {γ : Type} {L L' : Layout} {r r' : γ × WalkState}
    (h : SameResult L L' r r') : r'.1 = r.1 ∧ r'.2.hashed = r.2.hashed :=
  ⟨h.1, h.2.hashed⟩

section Walks

variable {L L' : Layout} {s s' : Keystone} {a : AddressSpace} {n : ℕ × ℕ}
  {range : BitVec 64 × BitVec 64} {st st' : WalkState}

theorem WalkState.Same.hashExtend (h : st.Same L L' st') (bytes : List Byte) :
    (st.hashExtend bytes).Same L L' (st'.hashExtend bytes) where
  hashed := by
    show st'.hashed ++ bytes = st.hashed ++ bytes
    rw [h.hashed]
  runtime := h.runtime
  user := h.user

/-- A mapped page has the same contents in both buffers. -/
theorem readPage_same (hr : Repr L s a) (hr' : Repr L' s' a) {v : ℕ} {lf : Leaf}
    (hl : a.leaf v = some lf) :
    readBytes s'.mem (frameAddr (lf.frame.number L') 0) riscvPgsize =
      readBytes s.mem (frameAddr (lf.frame.number L) 0) riscvPgsize := by
  refine readBytes_congr fun i hi => ?_
  rw [frameAddr_add, frameAddr_add, Nat.zero_add, hr.bytes hl hi, hr'.bytes hl hi]

/-- A page with the same contents goes into the hash. -/
theorem WalkState.Same.hashExtendPage (h : st.Same L L' st') {m m' : Mem} {p p' : Paddr}
    (hread : readBytes m' p' riscvPgsize = readBytes m p riscvPgsize) :
    (st.hashExtendPage m p).Same L L' (st'.hashExtendPage m' p') := by
  rw [WalkState.hashExtendPage, WalkState.hashExtendPage, hread]
  exact h.hashExtend _

/-- The loop over entries that are treated alike. -/
theorem validateLoop_same {entry entry' : ℕ → Int → WalkState → Option Int × WalkState}
    (l : List ℕ) (hentry : ∀ i ∈ l, ∀ (c : Int) (st st' : WalkState), st.Same L L' st' →
      SameResult L L' (entry i c st) (entry' i c st')) (c : Int) (hst : st.Same L L' st') :
    SameResult L L' (validateLoop entry l c st) (validateLoop entry' l c st') := by
  induction l generalizing c st st' with
  | nil => exact ⟨rfl, hst⟩
  | cons i l ih =>
    obtain ⟨hanswer, hstate⟩ := hentry i List.mem_cons_self c st st' hst
    rw [validateLoop, validateLoop]
    rcases hx : entry i c st with ⟨r, t⟩
    rcases hx' : entry' i c st' with ⟨r', t'⟩
    rw [hx, hx'] at hanswer hstate
    obtain rfl : r' = r := hanswer
    cases r' with
    | none => exact ⟨rfl, hstate⟩
    | some c => exact ih (fun j hj => hentry j (List.mem_cons_of_mem _ hj)) c hstate

/-- The two buffers with one address space, measured with the same regions. -/
structure SideBySide (L L' : Layout) (s s' : Keystone) (a : AddressSpace) (n : ℕ × ℕ)
    (range : BitVec 64 × BitVec 64) : Prop where
  moved : Moved L L'
  repr : Repr L s a
  repr' : Repr L' s' a
  size : range.2.toNat ≤ 4096 * L.utmPages
  runtimeData : n.1 ≤ a.epmUsed
  userData : n.2 ≤ a.epmUsed

/-- All questions the walk asks about a page have the same answers. -/
structure SameAnswers (c c' : KeystoneHashEnclave) (p p' : Paddr) : Prop where
  mapInEpm : c'.mapInEpm p' = c.mapInEpm p
  mapInUtm : c'.mapInUtm p' = c.mapInUtm p
  inRuntime : c'.inRuntime p' = c.inRuntime p
  inUser : c'.inUser p' = c.inUser p

namespace SideBySide

variable (h : SideBySide L L' s s' a n range)

include h

theorem answers {fr : Frame} (hheld : a.Holds fr) :
    SameAnswers (regionsAt L n a.epmUsed range) (regionsAt L' n a.epmUsed range)
      (frameAddr (fr.number L) 0) (frameAddr (fr.number L') 0) := by
  have hin := h.repr.inside_of_holds hheld
  have hin' := h.repr'.inside_of_holds hheld
  have hfits := h.repr.fits.1
  have hfits' := h.repr'.fits.1
  have hsize' : range.2.toNat ≤ 4096 * L'.utmPages := by
    rw [h.moved.utmPages]
    exact h.size
  have h₁ := h.runtimeData
  have h₂ := h.userData
  constructor
  · rw [mapInEpm_regionsAt h.moved.epm_lt hin, mapInEpm_regionsAt h.moved.epm_lt' hin',
      h.moved.epmPages]
  · rw [mapInUtm_regionsAt h.moved.utm_lt h.size hin, mapInUtm_regionsAt h.moved.utm_lt' hsize' hin']
  · rw [inRuntime_regionsAt h.moved.epm_lt hin (by omega) (by omega),
      inRuntime_regionsAt h.moved.epm_lt' hin' (by omega) (by omega)]
  · rw [inUser_regionsAt h.moved.epm_lt hin (by omega) (by omega),
      inUser_regionsAt h.moved.epm_lt' hin' (by omega) (by omega)]

/-- The pages of one mapped frame. -/
theorem phys {v : ℕ} {lf : Leaf} (hl : a.leaf v = some lf) :
    ptePhys (lf.pte L) = frameAddr (lf.frame.number L) 0 ∧
      ptePhys (lf.pte L') = frameAddr (lf.frame.number L') 0 :=
  ⟨ptePpn_shiftLeft (h.repr.leaf_inside hl).number_lt (h.repr.wf.leaf_flags hl),
    ptePpn_shiftLeft (h.repr'.leaf_inside hl).number_lt (h.repr.wf.leaf_flags hl)⟩

/-- A page that is compared with the last one is a page of the EPM. -/
theorem epm_of_inRuntime {fr : Frame} (hheld : a.Holds fr)
    (hruntime : (regionsAt L n a.epmUsed range).inRuntime (frameAddr (fr.number L) 0) = true) :
    ∃ k, fr = .epm k := by
  have hfits := h.repr.fits.1
  have h₁ := h.runtimeData
  have h₂ := h.userData
  rw [inRuntime_regionsAt h.moved.epm_lt (h.repr.inside_of_holds hheld) (by omega) (by omega)]
    at hruntime
  cases fr with
  | epm k => exact ⟨k, rfl⟩
  | utm j => cases hruntime

theorem epm_of_inUser {fr : Frame} (hheld : a.Holds fr)
    (huser : (regionsAt L n a.epmUsed range).inUser (frameAddr (fr.number L) 0) = true) :
    ∃ k, fr = .epm k := by
  have hfits := h.repr.fits.1
  have h₂ := h.userData
  rw [inUser_regionsAt h.moved.epm_lt (h.repr.inside_of_holds hheld) (by omega) (by omega)]
    at huser
  cases fr with
  | epm k => exact ⟨k, rfl⟩
  | utm j => cases huser

theorem frame_lt {v k : ℕ} {lf : Leaf} (hl : a.leaf v = some lf) (hfr : lf.frame = .epm k) :
    k < L.epmPages := by
  have hinside := h.repr.leaf_inside hl
  rwa [hfr] at hinside

/-- A mapped EPM page compares with the last page in the same way. -/
theorem le_iff {v k : ℕ} {lf : Leaf} (hl : a.leaf v = some lf) (hfr : lf.frame = .epm k)
    {max max' : Paddr} (hmax : SamePage L L' max max') :
    frameAddr (L'.epmFrame + k) 0 ≤ max' ↔ frameAddr (L.epmFrame + k) 0 ≤ max := by
  have hin := h.frame_lt hl hfr
  have hlt := h.moved.epm_lt
  have hlt' := h.moved.epm_lt'
  have hpages := h.moved.epmPages
  -- page 0 of the EPM is the root table
  have hpos : k ≠ 0 := by
    rintro rfl
    exact h.repr.wf.leaf_ne_tab hl h.repr.wf.root hfr
  cases hmax with
  | none =>
    rw [BitVec.le_def, BitVec.le_def, frameAddr_toNat (by omega) (by decide),
      frameAddr_toNat (by omega) (by decide), BitVec.toNat_ofNat]
    omega
  | @page k' hk' =>
    rw [frameAddr_le_iff (by omega) (by omega), frameAddr_le_iff (by omega) (by omega)]
    omega

/-- A mapped page is accepted in both runs or in none, with the same state
behind it. -/
theorem validateLeaf_same {v : ℕ} {lf : Leaf} (hl : a.leaf v = some lf) (va : Vaddr)
    (hst : st.Same L L' st') :
    (validateLeaf s.mem (regionsAt L n a.epmUsed range) (lf.pte L) va st = none ∧
        validateLeaf s'.mem (regionsAt L' n a.epmUsed range) (lf.pte L') va st' = none) ∨
      ∃ t t', validateLeaf s.mem (regionsAt L n a.epmUsed range) (lf.pte L) va st = some t ∧
        validateLeaf s'.mem (regionsAt L' n a.epmUsed range) (lf.pte L') va st' = some t' ∧
        t.Same L L' t' := by
  obtain ⟨hphys, hphys'⟩ := h.phys hl
  have hans := h.answers (h.repr.wf.leaf_held hl)
  have huser : lf.pte L' &&& pteU = lf.pte L &&& pteU := by
    rw [Leaf.pte, Leaf.pte, pteCreate_and_low (by decide), pteCreate_and_low (by decide)]
  have huntrusted : (regionsAt L' n a.epmUsed range).inUntrusted va =
      (regionsAt L n a.epmUsed range).inUntrusted va := rfl
  have hread := readPage_same h.repr h.repr' hl
  rw [validateLeaf, validateLeaf]
  simp only [hphys, hphys', hans.inUser, hans.mapInUtm, hans.inRuntime, huser, huntrusted]
  set c := regionsAt L n a.epmUsed range with hc
  set p := frameAddr (lf.frame.number L) 0 with hp
  -- the tests in the order of the code: none of them depends on where the buffers are
  by_cases hflag : c.inUser p = true ∧ lf.pte L &&& pteU = 0#64
  · exact .inl ⟨if_pos hflag, if_pos hflag⟩
  rw [if_neg hflag, if_neg hflag]
  by_cases hshared : c.inUntrusted va = true ∧ ¬ c.mapInUtm p = true
  · exact .inl ⟨if_pos hshared, if_pos hshared⟩
  rw [if_neg hshared, if_neg hshared]
  by_cases hruntime : c.inRuntime p = true
  · rw [if_pos hruntime, if_pos hruntime]
    -- the page and the maximum lie in the same buffer, so that they compare alike
    obtain ⟨k, hk⟩ := h.epm_of_inRuntime (h.repr.wf.leaf_held hl) hruntime
    have hle := h.le_iff hl hk hst.runtime
    rw [hp, hk] at hread ⊢
    by_cases hmax : frameAddr (L.epmFrame + k) 0 ≤ st.runtimeMaxSeen
    · exact .inl ⟨if_pos hmax, if_pos (hle.mpr hmax)⟩
    · refine .inr ⟨_, _, if_neg hmax, if_neg fun hmax' => hmax (hle.mp hmax'), ?_⟩
      have hnew : WalkState.Same L L' { st with runtimeMaxSeen := frameAddr (L.epmFrame + k) 0 }
          { st' with runtimeMaxSeen := frameAddr (L'.epmFrame + k) 0 } :=
        ⟨hst.hashed, .page (h.frame_lt hl hk), hst.user⟩
      exact hnew.hashExtendPage hread
  rw [if_neg hruntime, if_neg hruntime]
  by_cases huserPage : c.inUser p = true
  · rw [if_pos huserPage, if_pos huserPage]
    obtain ⟨k, hk⟩ := h.epm_of_inUser (h.repr.wf.leaf_held hl) huserPage
    have hle := h.le_iff hl hk hst.user
    rw [hp, hk] at hread ⊢
    by_cases hmax : frameAddr (L.epmFrame + k) 0 ≤ st.userMaxSeen
    · exact .inl ⟨if_pos hmax, if_pos (hle.mpr hmax)⟩
    · refine .inr ⟨_, _, if_neg hmax, if_neg fun hmax' => hmax (hle.mp hmax'), ?_⟩
      have hnew : WalkState.Same L L' { st with userMaxSeen := frameAddr (L.epmFrame + k) 0 }
          { st' with userMaxSeen := frameAddr (L'.epmFrame + k) 0 } :=
        ⟨hst.hashed, hst.runtime, .page (h.frame_lt hl hk)⟩
      exact hnew.hashExtendPage hread
  rw [if_neg huserPage, if_neg huserPage]
  by_cases hutm : c.mapInUtm p = true
  · exact .inr ⟨_, _, if_pos hutm, if_pos hutm, hst.hashExtendPage hread⟩
  · exact .inl ⟨if_neg hutm, if_neg hutm⟩

/-- An entry of a table of pages. -/
theorem leafEntry_same {q k i : ℕ} (hk : a.tab 0 q = some k) (hi : i < 512)
    (recurse recurse' : Addr → Vaddr → Int → WalkState → Int × WalkState) (vaddr : Vaddr) (c : Int)
    (hst : st.Same L L' st') :
    SameResult L L'
      (validateEntry s.mem (regionsAt L n a.epmUsed range) 1 recurse
        (frameAddr (L.epmFrame + k) 0) vaddr i c st)
      (validateEntry s'.mem (regionsAt L' n a.epmUsed range) 1 recurse'
        (frameAddr (L'.epmFrame + k) 0) vaddr i c st') := by
  rw [validateEntry, validateEntry]
  simp only [frameAddr_index, h.repr.entries hk hi, h.repr'.entries hk hi]
  cases hl : a.leaf (512 * q + i) with
  | none =>
    rw [AddressSpace.entry_leaf_none hl, AddressSpace.entry_leaf_none hl]
    exact ⟨rfl, hst⟩
  | some lf =>
    obtain ⟨hphys, hphys'⟩ := h.phys hl
    have hans := h.answers (h.repr.wf.leaf_held hl)
    rw [AddressSpace.entry_leaf_some hl, AddressSpace.entry_leaf_some hl,
      if_neg (show lf.pte L ≠ 0#64 from pteCreate_ne_zero _ _),
      if_neg (show lf.pte L' ≠ 0#64 from pteCreate_ne_zero _ _), hphys, hphys', hans.mapInEpm,
      hans.mapInUtm]
    split
    · exact ⟨rfl, hst⟩
    rw [if_pos trivial, if_pos trivial]
    -- the first address of a run goes into the hash
    have hfirst : WalkState.Same L L'
        (if c = 0 then st.hashExtend (leBytes (walkVpn 1 vaddr i <<< riscvPgshift)) else st)
        (if c = 0 then st'.hashExtend (leBytes (walkVpn 1 vaddr i <<< riscvPgshift)) else st') := by
      split
      · exact hst.hashExtend _
      · exact hst
    rcases h.validateLeaf_same hl (walkVpn 1 vaddr i <<< riscvPgshift) hfirst with
      ⟨hnone, hnone'⟩ | ⟨t, t', hsome, hsome', hsame⟩
    · rw [hnone, hnone']
      exact ⟨rfl, hfirst⟩
    · rw [hsome, hsome']
      exact ⟨rfl, hsame⟩

/-- An entry of a directory, when the tables below are treated alike. -/
theorem tableEntry_same {d q k i : ℕ} (hk : a.tab (d + 1) q = some k) (hi : i < 512)
    {recurse recurse' : Addr → Vaddr → Int → WalkState → Int × WalkState}
    (hrecurse : ∀ {q k : ℕ} (_ : a.tab d q = some k) (vaddr : Vaddr) (c : Int),
      ∀ {st st' : WalkState}, st.Same L L' st' → SameResult L L'
        (recurse (frameAddr (L.epmFrame + k) 0) vaddr c st)
        (recurse' (frameAddr (L'.epmFrame + k) 0) vaddr c st'))
    (vaddr : Vaddr) (c : Int) (hst : st.Same L L' st') :
    SameResult L L'
      (validateEntry s.mem (regionsAt L n a.epmUsed range) (d + 2) recurse
        (frameAddr (L.epmFrame + k) 0) vaddr i c st)
      (validateEntry s'.mem (regionsAt L' n a.epmUsed range) (d + 2) recurse'
        (frameAddr (L'.epmFrame + k) 0) vaddr i c st') := by
  have hlevel : d + 2 ≠ 1 := by omega
  rw [validateEntry, validateEntry]
  simp only [frameAddr_index, h.repr.entries hk hi, h.repr'.entries hk hi]
  cases ht : a.tab d (512 * q + i) with
  | none =>
    rw [AddressSpace.entry_tab_none ht, AddressSpace.entry_tab_none ht]
    exact ⟨rfl, hst⟩
  | some k' =>
    -- the entry names the same page of the EPM, wherever that is
    have hheld : a.Holds (.epm k') := h.repr.wf.tab_lt ht
    have hans := h.answers hheld
    have hphys : ptePhys (ptdCreate (BitVec.ofNat 64 (L.epmFrame + k'))) =
        frameAddr (L.epmFrame + k') 0 := ptePpn_shiftLeft (h.repr.tab_number_lt ht) (by decide)
    have hphys' : ptePhys (ptdCreate (BitVec.ofNat 64 (L'.epmFrame + k'))) =
        frameAddr (L'.epmFrame + k') 0 := ptePpn_shiftLeft (h.repr'.tab_number_lt ht) (by decide)
    rw [AddressSpace.entry_tab_some ht, AddressSpace.entry_tab_some ht,
      if_neg (show ptdCreate (BitVec.ofNat 64 (L.epmFrame + k')) ≠ 0#64 from
        pteCreate_ne_zero _ _),
      if_neg (show ptdCreate (BitVec.ofNat 64 (L'.epmFrame + k')) ≠ 0#64 from
        pteCreate_ne_zero _ _), hphys, hphys']
    have hepm : (regionsAt L' n a.epmUsed range).mapInEpm (frameAddr (L'.epmFrame + k') 0) =
        (regionsAt L n a.epmUsed range).mapInEpm (frameAddr (L.epmFrame + k') 0) := hans.mapInEpm
    have hutm : (regionsAt L' n a.epmUsed range).mapInUtm (frameAddr (L'.epmFrame + k') 0) =
        (regionsAt L n a.epmUsed range).mapInUtm (frameAddr (L.epmFrame + k') 0) := hans.mapInUtm
    rw [hepm, hutm]
    rw [if_neg hlevel, if_neg hlevel]
    split
    · exact ⟨rfl, hst⟩
    obtain ⟨hanswer, hstate⟩ := hrecurse ht (walkVpn (d + 2) vaddr i) c hst
    rcases hx : recurse (frameAddr (L.epmFrame + k') 0) (walkVpn (d + 2) vaddr i) c st with ⟨r, t⟩
    rcases hx' : recurse' (frameAddr (L'.epmFrame + k') 0) (walkVpn (d + 2) vaddr i) c st'
      with ⟨r', t'⟩
    rw [hx, hx'] at hanswer hstate
    obtain rfl : r' = r := hanswer
    simp only
    split
    · exact ⟨rfl, hstate⟩
    · exact ⟨rfl, hstate⟩

/-- **A table and all below it**: both walks give the same answer and feed the
hash the same bytes. -/
theorem validateAndHashEpm_same {d q k : ℕ} (hk : a.tab d q = some k) (vaddr : Vaddr) (c : Int)
    (hst : st.Same L L' st') :
    SameResult L L'
      (validateAndHashEpm s.mem (regionsAt L n a.epmUsed range) (d + 1)
        (frameAddr (L.epmFrame + k) 0) vaddr c st)
      (validateAndHashEpm s'.mem (regionsAt L' n a.epmUsed range) (d + 1)
        (frameAddr (L'.epmFrame + k) 0) vaddr c st') := by
  induction d generalizing q k vaddr c st st' with
  | zero =>
    rw [validateAndHashEpm, validateAndHashEpm]
    exact validateLoop_same _ (fun i hi c st st' hst =>
      h.leafEntry_same hk (List.mem_range.mp hi) _ _ vaddr c hst) c hst
  | succ d ih =>
    rw [validateAndHashEpm, validateAndHashEpm]
    exact validateLoop_same _ (fun i hi c st st' hst =>
      h.tableEntry_same hk (List.mem_range.mp hi) (fun ht vaddr c _ _ hst => ih ht vaddr c hst)
        vaddr c hst) c hst

/-- The whole measurement. -/
theorem validateTable_same (hashed : List Byte) :
    (validateTable s'.mem (regionsAt L' n a.epmUsed range) s'.rootPageTable hashed).1 =
        (validateTable s.mem (regionsAt L n a.epmUsed range) s.rootPageTable hashed).1 ∧
      (validateTable s'.mem (regionsAt L' n a.epmUsed range) s'.rootPageTable hashed).2.hashed =
        (validateTable s.mem (regionsAt L n a.epmUsed range) s.rootPageTable hashed).2.hashed := by
  have hstart : WalkState.Same L L' ⟨hashed, 0#64, 0#64⟩ ⟨hashed, 0#64, 0#64⟩ :=
    ⟨rfl, .none, .none⟩
  have hroot : s.rootPageTable = frameAddr (L.epmFrame + 0) 0 := h.repr.root
  have hroot' : s'.rootPageTable = frameAddr (L'.epmFrame + 0) 0 := h.repr'.root
  have hwalk := h.validateAndHashEpm_same h.repr.wf.root 0#64 0 hstart
  have htop : riscvPglevelTop = 2 + 1 := rfl
  rw [validateTable, validateTable, hroot, hroot', htop]
  exact hwalk.hashed

end SideBySide

end Walks

/-! ### The load sequence and the measurement -/

/-- The regions of a loaded enclave: `data_start` of each image, and the free
pointer behind it all. -/
def Layout.regions (L : Layout) (s : Keystone) (loaded : LoadResult) : KeystoneHashEnclave where
  epmPaddr := s.rootPageTable
  epmSize := BitVec.ofNat 64 (4096 * L.epmPages)
  utmPaddr := L.utmBase
  utmSize := s.untrustedSize
  runtimePaddr := loaded.runtimeData
  userPaddr := loaded.userData
  freePaddr := s.epmFreeList
  untrustedPtr := s.untrustedStart
  untrustedSize := s.untrustedSize

/-- What the measurement makes of a finished load: the answer of
`validate_and_hash_epm`, and all that went into the hash. -/
def Layout.measure (L : Layout) (hashed : List Byte) (run : Except Stop LoadResult × Keystone) :
    Except Stop (Int × List Byte) :=
  run.1.map fun loaded =>
    let walk := validateTable run.2.mem (L.regions run.2 loaded) run.2.rootPageTable hashed
    (walk.1, walk.2.hashed)

theorem Moved.fits {L L' : Layout} (h : Moved L L') {a : AddressSpace} (hfits : a.Fits L) :
    a.Fits L' := by
  refine ⟨?_, ?_⟩
  · rw [h.epmPages]
    exact hfits.1
  · rw [h.utmPages]
    exact hfits.2

theorem Repr.regions_eq {L : Layout} {s : Keystone} {a : AddressSpace} (hr : Repr L s a)
    (n : ℕ × ℕ) : L.regions s (resultAt L n) = regionsAt L n a.epmUsed s.range := by
  rw [Layout.regions, hr.root, hr.epmFree]
  rfl

/-- **Placement**: two pairs of buffers of the same sizes, and the same images
and parameters.  If the first load stays inside its buffers so does the second;
both end alike, and the measurement of both gives the same answer and hashes
the same bytes. -/
theorem measurement_placement (L L' : Layout) (hmoved : Moved L L') (s s' : Keystone)
    (hs : Repr.Initial L s) (hs' : Repr.Initial L' s')
    (hstart : s'.untrustedStart = s.untrustedStart) (hsize : s'.untrustedSize = s.untrustedSize)
    (hutm : s.untrustedSize.toNat ≤ 4096 * L.utmPages) (runtimeFile enclaveFile : ELFFile)
    (dataStart dataStart' : Vaddr) (hashed : List Byte)
    (hin : InBuffers L (exec (loadSequence runtimeFile enclaveFile dataStart) s).2) :
    InBuffers L' (exec (loadSequence runtimeFile enclaveFile dataStart') s').2 ∧
      L'.measure hashed (exec (loadSequence runtimeFile enclaveFile dataStart') s') =
        L.measure hashed (exec (loadSequence runtimeFile enclaveFile dataStart) s) := by
  have hr := Repr.of_initial hs
  have hr' := Repr.of_initial hs'
  have hrange : s'.range = s.range := by rw [Keystone.range, Keystone.range, hstart, hsize]
  -- the pages in use are counted in the address space, which is the same
  have hfits := (loadSequence_inBuffers_iff hr runtimeFile enclaveFile dataStart).mp hin
  have hin' : InBuffers L' (exec (loadSequence runtimeFile enclaveFile dataStart') s').2 := by
    rw [loadSequence_inBuffers_iff hr', hrange]
    exact hmoved.fits hfits
  obtain ⟨hend, hrepr⟩ := loadSequence_represents hr runtimeFile enclaveFile dataStart hin
  obtain ⟨hend', hrepr'⟩ := loadSequence_represents hr' runtimeFile enclaveFile dataStart' hin'
  have hkept : (exec (loadSequence runtimeFile enclaveFile dataStart) s).2.range = s.range := by
    rw [loadSequence_state, runAll_range]
  have hkept' : (exec (loadSequence runtimeFile enclaveFile dataStart') s').2.range = s.range := by
    rw [loadSequence_state, runAll_range, hrange]
  rw [hrange] at hend' hrepr'
  refine ⟨hin', ?_⟩
  rcases hx : exec (loadMeaning runtimeFile enclaveFile s.range) AddressSpace.empty with ⟨r, b⟩
  rw [hx] at hend hend' hrepr hrepr'
  rw [Layout.measure, Layout.measure, hend, hend']
  cases r with
  | error e => simp only [Except.map]
  | ok n =>
    obtain ⟨hle, hused⟩ := loadMeaning_used hx
    have hside : SideBySide L L' (exec (loadSequence runtimeFile enclaveFile dataStart) s).2
        (exec (loadSequence runtimeFile enclaveFile dataStart') s').2 b n s.range :=
      ⟨hmoved, hrepr, hrepr', hutm, hle.trans hused, hused⟩
    obtain ⟨hanswer, hbytes⟩ := hside.validateTable_same hashed
    simp only [Except.map, hrepr.regions_eq, hrepr'.regions_eq, hkept, hkept', hanswer, hbytes]

/-! ### Two places for one enclave -/

theorem placed_utmPages_lt : 2 < 2 ^ 52 := by decide

/-- 64 pages of EPM behind page `p`, and two of UTM. -/
def placedLayout (p : Fin 4096) : Layout where
  epmFrame := p + 1
  epmPages := 64
  utmFrame := p + 100
  utmPages := 2
  utmBase := frameAddr (p + 100) 0
  utmBase_eq := fun _ => rfl
  epm_le := by omega
  utm_le := by omega
  epmPages_lt := by decide
  utmPages_lt := placed_utmPages_lt
  disjoint := by
    intro i j hi hj
    omega

/-- The first state of `placedLayout`, for an untrusted range of two pages. -/
def placedState (p : Fin 4096) : Keystone where
  mem := fun _ => 0
  rootPageTable := frameAddr (p + 1) 0
  startAddr := frameAddr (p + 1) 0
  epmFreeList := frameAddr (p + 1 + 1) 0
  utmFreeList := frameAddr (p + 100) 0
  untrustedStart := 0x80000000#64
  untrustedSize := 0x2000#64
  hash := none
  epmPages := [frameAddr (p + 1) 0]
  utmPages := []

theorem placedState_initial (p : Fin 4096) : Repr.Initial (placedLayout p) (placedState p) where
  room := by show 0 < 64; decide
  root := rfl
  epmFree := rfl
  utmFree := rfl
  zero := fun _ _ => rfl
  epmLog := rfl
  utmLog := rfl

theorem placedLayout_moved (p q : Fin 4096) : Moved (placedLayout p) (placedLayout q) where
  epmPages := rfl
  utmPages := rfl
  epm_lt := by show (p : ℕ) + 1 + 64 < 2 ^ 52; omega
  epm_lt' := by show (q : ℕ) + 1 + 64 < 2 ^ 52; omega
  utm_lt := by show (p : ℕ) + 100 + 2 < 2 ^ 52; omega
  utm_lt' := by show (q : ℕ) + 100 + 2 < 2 ^ 52; omega

theorem placed_fits (p : Fin 4096) :
    (exec (forM (loadRequests smallRuntime alignedElf (0x80000000#64, 0x2000#64)) Request.apply)
      AddressSpace.empty).2.Fits (placedLayout p) := by
  obtain ⟨hepm, hutm⟩ := loadRequests_used smallRuntime_loadable alignedElf_loadable
    (show RangeEnds (0x80000000#64, 0x2000#64) by unfold RangeEnds; decide)
  rw [smallLoad_need] at hepm
  have hneed : utmNeed smallRuntime alignedElf (0x80000000#64, 0x2000#64) = 2 := by decide +kernel
  rw [hneed] at hutm
  exact ⟨by rw [hepm]; show 44 ≤ 64; decide, by rw [hutm]; exact le_refl 2⟩

theorem measurement_placement_small :
    InBuffers (placedLayout 500)
        (exec (loadSequence smallRuntime alignedElf 0#64) (placedState 500)).2 ∧
      (placedLayout 500).measure []
          (exec (loadSequence smallRuntime alignedElf 0#64) (placedState 500)) =
        (placedLayout 7).measure []
          (exec (loadSequence smallRuntime alignedElf 0#64) (placedState 7)) :=
  measurement_placement (placedLayout 7) (placedLayout 500) (placedLayout_moved 7 500)
    (placedState 7) (placedState 500) (placedState_initial 7) (placedState_initial 500) rfl rfl
    (by decide) smallRuntime alignedElf 0#64 0#64 []
    ((loadSequence_inBuffers_iff (Repr.of_initial (placedState_initial 7)) _ _ _).mpr (placed_fits 7))

end KeystoneSdk
