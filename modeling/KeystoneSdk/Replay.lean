/-
What a sequence of requests makes of an address space.

* `apply_leaf_mono`, `apply_tab_mono` — a request never changes what is there;
* `apply_leaf_new` — an allocation of an unmapped page maps it;
* `run_leaf` — after a run that returned, an unmapped page has got what the
  first allocation for its number gave it;
* `run_wf`, `run_returns` — runs keep the invariant, and return when every
  source can be read.
-/
import KeystoneSdk.Simulation

open ByteMemory StopM

namespace KeystoneSdk

/-- The list a frame comes from. -/
def Frame.list : Frame → FreeList
  | .epm _ => .epm
  | .utm _ => .utm

/-- What an allocation gives to an unmapped page. -/
structure Content where
  list : FreeList
  flags : BitVec 64
  bytes : ℕ → Byte

namespace Request

/-- What the request gives to page number `v`, if it is an allocation for it. -/
def content (v : ℕ) : Request → Option Content
  | alloc va l src mode =>
    if vpn va = v then
      some ⟨l, (modeFlags mode).getD 0, if modeWrites mode then src.bytes else fun _ => 0⟩
    else none
  | _ => none

/-- The request comes back, whatever the address space is. -/
def Returns : Request → Prop
  | walk _ => True
  | alloc _ _ src mode => modeWrites mode = true → src.readable 4096 = true
  | stop _ => False

end Request

namespace AddressSpace

/-! ### One request -/

section Step

variable {a : AddressSpace} {v : ℕ}

@[simp] theorem next_list (a : AddressSpace) (l : FreeList) : (a.next l).list = l := by
  cases l <;> rfl

/-- `place` leaves other pages alone. -/
theorem place_leaf_of_ne {v' : ℕ} (hne : v' ≠ v) (l : FreeList) (src : HostPtr)
    (mode : BitVec 32) (flags : BitVec 64) :
    (a.place v l src mode flags).2.leaf v' = a.leaf v' := by
  rcases hl : a.leaf v with _ | lf
  · rw [place_new hl]
    split
    · split
      · rw [fill_leaf_of_ne hne, addLeaf_leaf_of_ne hne]
      · exact addLeaf_leaf_of_ne hne _ _
    · exact addLeaf_leaf_of_ne hne _ _
  · rw [place_mapped hl]

/-- `place` maps its page. -/
theorem place_leaf_self (hnone : a.leaf v = none) (l : FreeList) (src : HostPtr)
    (mode : BitVec 32) (flags : BitVec 64) :
    ∃ lf, (a.place v l src mode flags).2.leaf v = some lf ∧ lf.frame = a.next l ∧
      lf.flags = flags ∧ ((a.place v l src mode flags).1 = .ok ⟨⟩ →
        lf.bytes = if modeWrites mode then src.bytes else fun _ => 0) := by
  rw [place_new hnone]
  cases modeWrites mode with
  | false => exact ⟨_, addLeaf_leaf_self l flags, rfl, rfl, fun _ => rfl⟩
  | true =>
    cases src.readable 4096 with
    | false => exact ⟨_, addLeaf_leaf_self l flags, rfl, rfl, by rintro ⟨⟩⟩
    | true =>
      exact ⟨_, fill_leaf_self (addLeaf_leaf_self l flags) src.bytes, rfl, rfl, fun _ => rfl⟩

theorem place_tab (h q : ℕ) (l : FreeList) (src : HostPtr) (mode : BitVec 32)
    (flags : BitVec 64) : (a.place v l src mode flags).2.tab h q = a.tab h q := by
  rcases hl : a.leaf v with _ | lf
  · rw [place_new hl]
    split
    · split <;> rfl
    · rfl
  · rw [place_mapped hl]

theorem place_wf (hw : a.WF) (hv : v < 134217728) {k : ℕ} (hk : a.tab 0 (v / 512) = some k)
    (l : FreeList) (src : HostPtr) (mode : BitVec 32) {flags : BitVec 64}
    (hf : flags.toNat < 1024) : (a.place v l src mode flags).2.WF := by
  rcases hl : a.leaf v with _ | lf
  · have hadd := addLeaf_wf hw hv hk hl l hf
    rw [place_new hl]
    split
    · split
      · exact fill_wf hadd _
      · exact hadd
    · exact hadd
  · rw [place_mapped hl]
    exact hw

variable {r : Request}

/-- An existing mapping is never changed. -/
theorem apply_leaf_mono (hv : r.Valid) {lf : Leaf} (h : a.leaf v = some lf) :
    (exec r.apply a).2.leaf v = some lf := by
  cases r with
  | walk va => exact (congrFun (touch_leaf _) v).trans h
  | stop reason => exact h
  | alloc va l src mode =>
    obtain ⟨flags, hf⟩ := Option.isSome_iff_exists.mp hv
    rw [exec_apply_alloc a va l src hf]
    by_cases hvv : v = vpn va
    · subst hvv
      have ht : (a.touch (vpn va)).leaf (vpn va) = some lf := by rw [touch_leaf, h]
      rw [place_mapped ht]
      exact ht
    · rw [place_leaf_of_ne hvv, touch_leaf, h]

/-- An existing table is never changed. -/
theorem apply_tab_mono (hv : r.Valid) {h q k : ℕ} (hk : a.tab h q = some k) :
    (exec r.apply a).2.tab h q = some k := by
  cases r with
  | walk va => exact touch_tab_mono hk
  | stop reason => exact hk
  | alloc va l src mode =>
    obtain ⟨flags, hf⟩ := Option.isSome_iff_exists.mp hv
    rw [exec_apply_alloc a va l src hf, place_tab]
    exact touch_tab_mono hk

theorem apply_wf (hv : r.Valid) (hw : a.WF) : (exec r.apply a).2.WF := by
  cases r with
  | walk va => exact touch_wf hw (vpn_lt va)
  | stop reason => exact hw
  | alloc va l src mode =>
    obtain ⟨flags, hf⟩ := Option.isSome_iff_exists.mp hv
    obtain ⟨k, hk⟩ := touch_tab_zero (a := a) (vpn va)
    rw [exec_apply_alloc a va l src hf]
    exact place_wf (touch_wf hw (vpn_lt va)) (vpn_lt va) hk l src mode (modeFlags_lt hf)

/-- What a request makes of a page that is not mapped yet. -/
theorem apply_leaf_new (hv : r.Valid) (hnone : a.leaf v = none) :
    match r.content v with
    | none => (exec r.apply a).2.leaf v = none
    | some c => ∃ lf, (exec r.apply a).2.leaf v = some lf ∧
        lf.frame = (a.touch v).next c.list ∧ lf.flags = c.flags ∧
        ((exec r.apply a).1 = .ok ⟨⟩ → lf.bytes = c.bytes) := by
  cases r with
  | walk va => exact (congrFun (touch_leaf _) v).trans hnone
  | stop reason => exact hnone
  | alloc va l src mode =>
    obtain ⟨flags, hf⟩ := Option.isSome_iff_exists.mp hv
    rw [exec_apply_alloc a va l src hf]
    by_cases hvv : vpn va = v
    · subst hvv
      simp only [Request.content, if_true, hf, Option.getD_some]
      exact place_leaf_self (by rw [touch_leaf, hnone]) l src mode flags
    · simp only [Request.content, if_neg hvv]
      rw [place_leaf_of_ne (Ne.symm hvv), touch_leaf, hnone]

theorem apply_returns (hv : r.Valid) (hr : r.Returns) (a : AddressSpace) :
    (exec r.apply a).1 = .ok ⟨⟩ := by
  cases r with
  | walk va => rfl
  | stop reason => exact hr.elim
  | alloc va l src mode =>
    obtain ⟨flags, hf⟩ := Option.isSome_iff_exists.mp hv
    rw [exec_apply_alloc a va l src hf]
    rcases hl : (a.touch (vpn va)).leaf (vpn va) with _ | lf
    · rw [place_new hl]
      cases hw : modeWrites mode with
      | false => rfl
      | true =>
        rw [if_pos rfl, if_pos (hr hw)]
    · rw [place_mapped hl]

end Step

/-! ### Runs -/

section Run

variable {a b : AddressSpace} {v : ℕ} {rs : List Request}

theorem run_wf (hv : ∀ r ∈ rs, r.Valid) (hw : a.WF) : (exec (forM rs Request.apply) a).2.WF :=
  forM_preserves rs (fun r hr _ hw => apply_wf (hv r hr) hw) hw

theorem run_leaf_mono (hv : ∀ r ∈ rs, r.Valid) {lf : Leaf} (h : a.leaf v = some lf) :
    (exec (forM rs Request.apply) a).2.leaf v = some lf :=
  forM_preserves (P := fun x : AddressSpace => x.leaf v = some lf) rs
    (fun r hr _ hl => apply_leaf_mono (hv r hr) hl) h

theorem run_tab_mono (hv : ∀ r ∈ rs, r.Valid) {h q k : ℕ} (hk : a.tab h q = some k) :
    (exec (forM rs Request.apply) a).2.tab h q = some k :=
  forM_preserves (P := fun x : AddressSpace => x.tab h q = some k) rs
    (fun r hr _ hl => apply_tab_mono (hv r hr) hl) hk

theorem run_returns (hv : ∀ r ∈ rs, r.Valid) (hr : ∀ r ∈ rs, r.Returns) (a : AddressSpace) :
    (exec (forM rs Request.apply) a).1 = .ok ⟨⟩ :=
  forM_returns rs (fun r h a => apply_returns (hv r h) (hr r h) a) a

/-- A run keeps unmapped what no request allocates. -/
theorem run_leaf_none (hv : ∀ r ∈ rs, r.Valid) (hc : ∀ r ∈ rs, r.content v = none)
    (hnone : a.leaf v = none) : (exec (forM rs Request.apply) a).2.leaf v = none := by
  refine forM_preserves (P := fun x : AddressSpace => x.leaf v = none) rs (fun r hr a' hl => ?_) hnone
  have hnew := apply_leaf_new (hv r hr) hl
  rw [hc r hr] at hnew
  exact hnew

/-- **First come, first served**: after a run that returned, a page that was
not mapped has got what the first allocation for it gave it. -/
theorem run_leaf (hv : ∀ r ∈ rs, r.Valid) (hnone : a.leaf v = none)
    (h : exec (forM rs Request.apply) a = (.ok ⟨⟩, b)) :
    match rs.findSome? (Request.content v) with
    | none => b.leaf v = none
    | some c => ∃ lf, b.leaf v = some lf ∧ lf.frame.list = c.list ∧ lf.flags = c.flags ∧
        lf.bytes = c.bytes := by
  induction rs generalizing a with
  | nil =>
    cases h
    exact hnone
  | cons r rs ih =>
    obtain ⟨a₁, h1, h2⟩ := exec_forM_cons_ok h
    have hv' : ∀ r ∈ rs, r.Valid := fun r hr => hv r (List.mem_cons_of_mem _ hr)
    have hnew := apply_leaf_new (hv r (List.mem_cons_self ..)) hnone
    rw [h1] at hnew
    rw [List.findSome?_cons]
    rcases hc : r.content v with _ | c
    · rw [hc] at hnew
      exact ih hv' hnew h2
    · rw [hc] at hnew
      obtain ⟨lf, hl, hfr, hfl, hby⟩ := hnew
      have hmono := run_leaf_mono hv' hl
      rw [h2] at hmono
      exact ⟨lf, hmono, by rw [hfr, next_list], hfl, hby rfl⟩

/-- A run that returned met no stop. -/
theorem not_stop_of_run_ok (h : exec (forM rs Request.apply) a = (.ok ⟨⟩, b)) (reason : Stop) :
    .stop reason ∉ rs := by
  induction rs generalizing a with
  | nil => exact List.not_mem_nil
  | cons r rs ih =>
    obtain ⟨a₁, h1, h2⟩ := exec_forM_cons_ok h
    intro hmem
    rcases List.mem_cons.mp hmem with rfl | hmem
    · cases h1
    · exact ih h2 hmem

end Run

end AddressSpace

end KeystoneSdk
