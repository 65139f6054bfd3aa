/-
Calls of the allocator that return null.

* `Unchanged` — the end of the heap, the free list and the pieces handed out are as
  before;
* `malloc_way` — `malloc` returns null only where it has stored nothing;
* `AlignWay`, `alignWay` — which block `memalign` settles on, in the wrapping sums of
  the code;
* `memalignCarve_null` — a block whose aligned address wraps to null is cut all the
  same;
* **`null_unchanged_iff`** — `malloc`, `calloc` and `realloc` that return null have
  changed nothing, `memalign` exactly when it does not settle on one of those.
-/
import KeystoneSdk.HeapRuns

open ByteMemory BlockHeap

namespace KeystoneSdk

namespace TinyMalloc

variable {σ : Type} {start : MallocStart} {sBrk : SBrk σ}

/-- The end of the heap, the free list and the pieces of the heap `bs` are in `s'` what
they are in `s`. -/
structure Unchanged (start : MallocStart) (bs : List Block) (s s' : TinyMalloc σ) : Prop where
  top : s'.mallocEnd = s.mallocEnd
  free : ∀ fl, FreeChain s s.freelist fl → FreeChain s' s'.freelist fl
  live : ∀ q ∈ chunks start.base bs, extentOf s' q = extentOf s q ∧ q.bytes s'.mem = q.bytes s.mem

theorem Unchanged.refl (start : MallocStart) (bs : List Block) (s : TinyMalloc σ) :
    Unchanged start bs s s :=
  ⟨rfl, fun _ h => h, fun _ _ => ⟨rfl, rfl⟩⟩

/-! ### `malloc`, `calloc`, `realloc` -/

/-- The payload address of a block inside the heap is not null. -/
theorem payload_ne_zero {a : ℕ} (h : a + 16 ≤ 2 ^ 64) : BitVec.ofNat 64 a + 8#64 ≠ 0#64 := by
  have hsum : BitVec.ofNat 64 a + 8#64 = BitVec.ofNat 64 (a + 8) := (BitVec.ofNat_add _ _).symm
  rw [hsum]
  intro hzero
  have := (ofNat_inj (x := a + 8) (y := 0) (by omega) (by omega)).1 hzero
  omega

/-- `malloc` finds no free block of `r` bytes, and `CAN_ALLOC_P` refuses more space. -/
def mallocRefuses (s : TinyMalloc σ) (frame : Addr) (r : BitVec 64) : List Block → Bool
  | [] => !s.canAlloc frame r
  | ⟨_, some _⟩ :: bs => mallocRefuses s frame r bs
  | ⟨size, none⟩ :: bs =>
    if r ≤ BitVec.ofNat 64 size then false
    else if bs = [] then !s.canAlloc frame (r - BitVec.ofNat 64 size)
    else mallocRefuses s frame r bs

/-- What a call of `malloc` returns, by whether it is refused. -/
def RefusedResult (s : TinyMalloc σ) (result : Addr × TinyMalloc σ) : Bool → Prop
  | true => result = (0#64, s)
  | false => result.1 ≠ 0#64

/-- The loop of `malloc` ends, whatever size it looks for, and a null result is one of
its two early exits. -/
theorem mallocLoop_null {s : TinyMalloc σ} (sBrk : SBrk σ) (frame : Addr) (r : BitVec 64)
    (pre : List Block) {post : List Block} {fuel : ℕ} (h : Represents start s (pre ++ post))
    (hfuel : post.length < fuel) :
    ∃ result, mallocLoop sBrk frame r fuel (link start pre) s = some result ∧
      RefusedResult s result (mallocRefuses s frame r post) := by
  induction post generalizing pre fuel with
  | nil =>
    obtain ⟨fuel, rfl⟩ : ∃ f, fuel = f + 1 := ⟨fuel - 1, by simp at hfuel; omega⟩
    rw [List.append_nil] at h
    have hbelow := h.below
    unfold mallocLoop mallocRefuses
    rw [if_pos (deref_link h.laid h.row.ok h.lt.le)]
    cases s.canAlloc frame r
    · exact ⟨_, rfl, rfl⟩
    · refine ⟨_, rfl, fun hnull => ?_⟩
      have hnull' : s.mallocEnd + 8#64 = 0#64 := hnull
      rw [h.top] at hnull'
      exact absurd hnull' (payload_ne_zero hbelow)
  | cons b post ih =>
    obtain ⟨size, use⟩ := b
    rcases use with _ | m
    · obtain ⟨fuel, rfl⟩ : ∃ f, fuel = f + 1 := ⟨fuel - 1, by simp at hfuel; omega⟩
      have hat := h.atFree
      have hbelow := h.below
      have hlast := h.last_iff
      rw [hat.header] at hlast
      simp only [total_append, total_cons] at hbelow
      -- every exit with a block returns its payload address
      have hsome : BitVec.ofNat 64 (start.base + total pre) + 8#64 ≠ 0#64 :=
        payload_ne_zero (by omega)
      unfold mallocLoop mallocRefuses
      simp only [hat.pointer, hat.header]
      rw [if_neg hat.nonnull]
      by_cases hfits : r ≤ BitVec.ofNat 64 size
      · rw [if_pos hfits, if_pos hfits]
        split
        · exact ⟨_, rfl, hsome⟩
        · exact ⟨_, rfl, hsome⟩
      · rw [if_neg hfits, if_neg hfits]
        by_cases hpost : post = []
        · rw [if_pos (hlast.2 hpost), if_pos hpost]
          cases s.canAlloc frame (r - BitVec.ofNat 64 size)
          · exact ⟨_, rfl, rfl⟩
          · exact ⟨_, rfl, hsome⟩
        · rw [if_neg fun hcond => hpost (hlast.1 hcond), if_neg hpost, ← link_free pre size]
          have hassoc : pre ++ ⟨size, none⟩ :: post = (pre ++ [⟨size, none⟩]) ++ post := by simp
          rw [hassoc] at h
          exact ih _ h (by simp at hfuel; omega)
    · -- a block handed out: the link stays the same
      have hassoc : pre ++ ⟨size, some m⟩ :: post = (pre ++ [⟨size, some m⟩]) ++ post := by simp
      rw [hassoc] at h
      rw [← link_live pre size m]
      exact ih _ h (by simp at hfuel; omega)

/-- **How a call of `malloc` ends**, whatever wraps. -/
theorem malloc_way {s : TinyMalloc σ} {bs : List Block} (sBrk : SBrk σ) (frame : Addr)
    (sz : BitVec 64) (h : Represents start s bs) :
    ∃ result, malloc start sBrk frame sz s = some result ∧
      RefusedResult s result (mallocRefuses s frame (realSize sz) bs) := by
  unfold malloc
  rw [h.initEnd]
  exact mallocLoop_null sBrk frame (realSize sz) [] h h.length_lt

/-- A null result of `malloc` comes with the state as it was. -/
theorem RefusedResult.same {s s1 : TinyMalloc σ} {b : Bool} (h : RefusedResult s (0#64, s1) b) :
    s1 = s := by
  cases b with
  | true => exact (Prod.mk.inj h).2
  | false => exact absurd rfl h

section Null

variable {s s' : TinyMalloc σ} {bs : List Block} {frame : Addr}

theorem malloc_null {sz : BitVec 64} (h : Represents start s bs)
    (hrun : malloc start sBrk frame sz s = some (0#64, s')) : s' = s := by
  obtain ⟨result, hway, hresult⟩ := malloc_way sBrk frame sz h
  obtain rfl := Option.some.inj (hrun.symm.trans hway)
  exact hresult.same

theorem calloc_null_same {n elemSize : BitVec 64} (h : Represents start s bs)
    (hrun : calloc start sBrk frame n elemSize s = some (0#64, s')) : s' = s := by
  obtain ⟨⟨p, s1⟩, hmalloc, hresult⟩ := malloc_way sBrk frame (n * elemSize) h
  by_cases hp : p = 0#64
  · subst hp
    rw [calloc_null hmalloc] at hrun
    obtain ⟨-, rfl⟩ := Prod.mk.inj (Option.some.inj hrun)
    exact hresult.same
  · -- after the stores the pointer is returned as it was
    cases hset : memset s1.mem p 0#32 (n * elemSize) with
    | none =>
      simp [calloc, hmalloc, hp, hset] at hrun
    | some m =>
      rw [calloc_filled hmalloc hp hset] at hrun
      exact absurd (Prod.mk.inj (Option.some.inj hrun)).1 hp

theorem realloc_null_same {p : Addr} {sz : BitVec 64} (h : Represents start s bs)
    (hrun : realloc start sBrk frame p sz s = some (0#64, s')) : s' = s := by
  by_cases hp : p = 0#64
  · subst hp
    have hmalloc : realloc start sBrk frame 0#64 sz s = malloc start sBrk frame sz s := by
      simp [realloc]
    exact malloc_null h (hmalloc.symm.trans hrun)
  obtain ⟨⟨q, s1⟩, hmalloc, hresult⟩ := malloc_way sBrk frame sz h
  by_cases hsize : s.size (p - 8#64) < realSize sz
  · by_cases hq : q = 0#64
    · subst hq
      obtain rfl : s1 = s := hresult.same
      rw [TinyMalloc.realloc_null hp hsize hmalloc] at hrun
      exact (Prod.mk.inj (Option.some.inj hrun)).2.symm
    · -- copied and given back, or one of the two does not end: never null
      simp only [realloc, hp, hsize, hmalloc, hq, if_true, if_false, Option.bind_eq_bind,
        Option.bind_some, Option.bind_eq_some_iff] at hrun
      obtain ⟨m, -, s2, -, hret⟩ := hrun
      exact absurd (Prod.mk.inj (Option.some.inj hret)).1 hq
  · by_cases hrest : sizeofEntry ≤ s.size (p - 8#64) - realSize sz
    · simp only [realloc, hp, hsize, hrest, if_true, if_false, Option.bind_eq_bind,
        Option.bind_eq_some_iff] at hrun
      obtain ⟨s2, -, hret⟩ := hrun
      exact absurd (Prod.mk.inj (Option.some.inj hret)).1 hp
    · rw [realloc_stay hp hsize hrest] at hrun
      exact absurd (Prod.mk.inj (Option.some.inj hrun)).1 hp

end Null

/-- `REAL_SIZE` gives whole words, also when it wraps. -/
theorem realSize_words (sz : BitVec 64) : (realSize sz).toNat % 8 = 0 := by
  have hlt := sz.isLt
  have halign : (mAlign sz 8#64).toNat = (2 ^ 64 - sz.toNat) % 2 ^ 3 :=
    mAlign_toNat sz (k := 3) (by omega)
  unfold realSize
  split
  · rfl
  · rw [BitVec.toNat_add, BitVec.toNat_add, halign]
    have h8 : (8#64).toNat = 8 := rfl
    omega

/-! ### Where `memalign` takes its block -/

/-- What `memalign` needs of a free block at `a`. -/
def alignNeed (align r : BitVec 64) (a : ℕ) : BitVec 64 := r + beforeSize (BitVec.ofNat 64 a) align

/-- What it appends to the heap at `a` when no free block will do. -/
def alignFirst (align r : BitVec 64) (a : ℕ) : BitVec 64 :=
  r + mAlign (BitVec.ofNat 64 a + 8#64) align

/-- The pointer it returns when it takes its block out of the one at `a`. -/
def alignPiece (align : BitVec 64) (a : ℕ) : Addr :=
  BitVec.ofNat 64 a + beforeSize (BitVec.ofNat 64 a) align + 8#64

/-- How a call of `memalign` ends. -/
inductive AlignWay
  /-- `CAN_ALLOC_P` refuses before anything has been stored. -/
  | refused
  /-- A block has been appended when `CAN_ALLOC_P` refuses. -/
  | late
  /-- The block is taken out of the one at `a`. -/
  | takes (a : ℕ)
  deriving DecidableEq

/-- How a call of `memalign` ends on the blocks `bs` from `a` on, none before having
been large enough. -/
def alignWay (s : TinyMalloc σ) (frame : Addr) (align r : BitVec 64) : ℕ → List Block → AlignWay
  | a, [] =>
    if !s.canAlloc frame (alignFirst align r a) then
      .refused
    else if alignNeed align r a ≤ alignFirst align r a ∨
        ({ s with mallocEnd := BitVec.ofNat 64 a + alignFirst align r a } : TinyMalloc σ).canAlloc
          frame (alignNeed align r a - alignFirst align r a) then
      .takes a
    else
      .late
  | a, ⟨size, some _⟩ :: bs => alignWay s frame align r (a + size) bs
  | a, ⟨size, none⟩ :: bs =>
    if alignNeed align r a ≤ BitVec.ofNat 64 size then
      .takes a
    else if bs = [] then
      if s.canAlloc frame (alignNeed align r a - BitVec.ofNat 64 size) then .takes a else .refused
    else
      alignWay s frame align r (a + size) bs

/-! ### The free list has changed -/

/-- What leads past a prefix of a row leads to its other free blocks. -/
theorem FreeChain.behind {t : TinyMalloc σ} {a : ℕ} {v x : Addr} {pre post : List Block}
    (hl : Laid t.mem v a pre x) (h : FreeChain t v (freeBlocks a (pre ++ post))) :
    FreeChain t x (freeBlocks (a + total pre) post) := by
  induction pre generalizing a v with
  | nil =>
    obtain rfl : x = v := hl
    exact h
  | cons b pre ih =>
    rw [total_cons, ← Nat.add_assoc]
    obtain ⟨size, use | n⟩ := b
    · obtain ⟨rfl, -, hl⟩ := hl
      have hchain := h.2.2.2
      rw [next_ofNat] at hchain
      exact ih hl hchain
    · exact ih hl.2 h

section Carve

variable {t : TinyMalloc σ} {pre post : List Block} {size k : ℕ} {align r old : BitVec 64}

/-- A gap in front of an aligned address that wraps to null. -/
theorem gap_of_null {a : ℕ} {before : BitVec 64} (ha : a + 16 ≤ 2 ^ 64)
    (hnull : BitVec.ofNat 64 a + before + 8#64 = 0#64) :
    before.toNat = 2 ^ 64 - 8 - a ∧ before ≠ 0#64 ∧
      BitVec.ofNat 64 a + before = BitVec.ofNat 64 (2 ^ 64 - 8) := by
  have hsum := congrArg BitVec.toNat hnull
  have hlt := before.isLt
  rw [BitVec.toNat_add, BitVec.toNat_add, BitVec.toNat_ofNat] at hsum
  have h8 : (8#64).toNat = 8 := rfl
  have h0 : (0#64).toNat = 0 := rfl
  rw [h8, h0, Nat.mod_eq_of_lt (show a < 2 ^ 64 by omega)] at hsum
  have hbefore : before.toNat = 2 ^ 64 - 8 - a := by omega
  refine ⟨hbefore, ?_, ?_⟩
  · rintro rfl
    have h0' : (0#64).toNat = 0 := rfl
    omega
  · apply BitVec.eq_of_toNat_eq
    rw [BitVec.toNat_add, BitVec.toNat_ofNat, BitVec.toNat_ofNat, hbefore]
    omega

/-- What is left where a block was cut for a piece at the null pointer: the list still
leads there, and its size or its `next` is not what it was. -/
theorem memalignCarve_null {x : Addr} (hl : Laid t.mem t.freelist start.base pre x)
    (hok : ∀ b ∈ pre, b.Ok) {a : ℕ} (ha : start.base + total pre = a) (ha16 : a + 16 ≤ 2 ^ 64)
    (hx : x = BitVec.ofNat 64 a) {before : BitVec 64} (hroom : 16 ≤ before.toNat)
    (hnull : BitVec.ofNat 64 a + before + 8#64 = 0#64) (hr8 : r.toNat % 8 = 0)
    (hrest : ¬ old - before ≤ r + sizeofEntry → a + 8 ≤ r.toNat) :
    let s' := (memalignCarve r (link start pre) (BitVec.ofNat 64 a) old before t).2
    Laid s'.mem s'.freelist start.base pre (BitVec.ofNat 64 a) ∧
      (s'.size (BitVec.ofNat 64 a) = before ∨
        (¬ old - before ≤ r + sizeofEntry ∧
          s'.next (BitVec.ofNat 64 a) = BitVec.ofNat 64 (r.toNat - 8))) := by
  intro s'
  subst hx
  obtain ⟨hbefore, hne, hblock⟩ := gap_of_null ha16 hnull
  have hr := r.isLt
  have hfront := (Front.refl hl).store hok before (q := a) ha.le (by omega)
  by_cases hwhole : old - before ≤ r + sizeofEntry
  · -- two stores, the second at the last word of the address space
    have hs' : s' = (t.storeHeader (BitVec.ofNat 64 a) before).storeHeader
        (BitVec.ofNat 64 (2 ^ 64 - 8)) (old - before) := by
      show (memalignCarve _ _ _ _ _ _).2 = _
      unfold memalignCarve
      rw [if_pos hne]
      dsimp only
      rw [if_pos hwhole, hblock]
      rfl
    have hfront' := hfront.store hok (old - before) (q := 2 ^ 64 - 8) (by omega) (by omega)
    rw [← hs'] at hfront'
    refine ⟨hfront'.laid, .inl ?_⟩
    rw [hs']
    refine (readLE64_writeLE64_disjoint _ _ (by omega) (by omega) (by omega)).trans ?_
    exact readLE64_writeLE64_same _ _ _
  · have hrest' := hrest hwhole
    have hnew : BitVec.ofNat 64 (2 ^ 64 - 8) + r = BitVec.ofNat 64 (r.toNat - 8) := by
      apply BitVec.eq_of_toNat_eq
      rw [BitVec.toNat_add, BitVec.toNat_ofNat, BitVec.toNat_ofNat]
      omega
    set t2 := (t.setSize (BitVec.ofNat 64 a) before).setSize (BitVec.ofNat 64 (r.toNat - 8))
      (old - before - r) with ht2
    have hs' : s' = ((((t.storeHeader (BitVec.ofNat 64 a) before).storeHeader
        (BitVec.ofNat 64 (r.toNat - 8)) (old - before - r)).storeHeader
        (BitVec.ofNat 64 (r.toNat - 8 + 8)) (t2.next (BitVec.ofNat 64 a))).storeHeader
        (BitVec.ofNat 64 (a + 8)) (BitVec.ofNat 64 (r.toNat - 8))).storeHeader
        (BitVec.ofNat 64 (2 ^ 64 - 8)) r := by
      show (memalignCarve _ _ _ _ _ _).2 = _
      unfold memalignCarve
      rw [if_pos hne]
      dsimp only
      rw [if_neg hwhole, hblock, hnew, ← ht2, setNext_ofNat, setNext_ofNat]
      rfl
    have hfront' : Front start t s' pre (BitVec.ofNat 64 a) := by
      rw [hs']
      refine Front.store ?_ hok _ (by omega) (by omega)
      refine Front.store ?_ hok _ (by omega) (by omega)
      refine Front.store ?_ hok _ (by omega) (by omega)
      exact hfront.store hok _ (by omega) (by omega)
    refine ⟨hfront'.laid, .inr ⟨hwhole, ?_⟩⟩
    rw [next_ofNat, hs']
    refine (readLE64_writeLE64_disjoint _ _ (by omega) (by omega) (by omega)).trans ?_
    exact readLE64_writeLE64_same _ _ _

theorem memalignCarve_fst (nextfree : Fle) (block : Addr) (before : BitVec 64) :
    (memalignCarve r nextfree block old before t).1 = block + before + 8#64 := by
  unfold memalignCarve
  split
  · dsimp only
    split
    · rfl
    · rfl
  · next hzero =>
    obtain rfl : before = 0#64 := not_not.1 hzero
    rw [BitVec.add_zero]
    split
    · rfl
    · rfl

end Carve

/-! ### The loop of `memalign` -/

section Search

variable {s : TinyMalloc σ} {bs pre post : List Block} {size k : ℕ} {align r : BitVec 64}
  {frame : Addr}

/-- One round of the loop at a free block of `old` bytes, in the wrapping sums of the
code; `last` is whether the block ends the free list and the heap. -/
theorem memalignBlock_way (frame : Addr) (align r : BitVec 64) (nextfree : Fle)
    (again : TinyMalloc σ → Option (Addr × TinyMalloc σ)) {a : ℕ} {old : BitVec 64}
    (hsize : s.size (BitVec.ofNat 64 a) = old) {last : Prop} [Decidable last]
    (hlast : (s.next (BitVec.ofNat 64 a) = 0#64 ∧ s.mallocEnd = BitVec.ofNat 64 a + old) ↔ last) :
    let before := beforeSize (BitVec.ofNat 64 a) align
    let need := alignNeed align r a
    memalignBlock frame align r nextfree (BitVec.ofNat 64 a) old again s =
      if need ≤ old then
        some (memalignCarve r nextfree (BitVec.ofNat 64 a) old before s)
      else if last then
        if s.canAlloc frame (need - old) then
          some (memalignCarve r nextfree (BitVec.ofNat 64 a) need before
            (({ s with mallocEnd := BitVec.ofNat 64 a + need } : TinyMalloc σ).setSize
              (BitVec.ofNat 64 a) need))
        else
          some (0#64, s)
      else
        again s := by
  intro before need
  have hneed : r + before = need := rfl
  have hneed' : before + r = need := BitVec.add_comm _ _
  have hend : BitVec.ofNat 64 a + before + r = BitVec.ofNat 64 a + need := by
    rw [BitVec.add_assoc, hneed']
  unfold memalignBlock
  dsimp only
  rw [show beforeSize (BitVec.ofNat 64 a) align = before from rfl, hneed, hneed', hend, hsize]
  by_cases hfits : need ≤ old
  · rw [if_pos hfits, if_pos hfits, if_neg fun hcond => absurd hfits (BitVec.not_le.2 hcond.2.1)]
  · rw [if_neg hfits, if_neg hfits]
    by_cases hl : last
    · have hcond := hlast.2 hl
      rw [if_pos hl, if_pos ⟨hcond.1, BitVec.not_le.1 hfits, hcond.2⟩,
        if_pos (show need ≤ need from BitVec.le_refl _)]
      cases s.canAlloc frame (need - old)
      · rfl
      · rfl
    · rw [if_neg hl, if_neg fun hcond => hl (hlast.1 ⟨hcond.1, hcond.2.2⟩)]

/-- The free list is no longer that of the row. -/
def FreeListChanged (start : MallocStart) (bs : List Block) (s' : TinyMalloc σ) : Prop :=
  ¬ FreeChain s' s'.freelist (freeBlocks start.base bs)

/-- The heap with the block at `a`, the last one, made `m` bytes long. -/
def enlarged (s : TinyMalloc σ) (a : ℕ) (m : BitVec 64) : TinyMalloc σ :=
  ({ s with mallocEnd := BitVec.ofNat 64 a + m } : TinyMalloc σ).setSize (BitVec.ofNat 64 a) m

/-- The heap with a block of `m` bytes appended to the free list. -/
def appended (start : MallocStart) (s : TinyMalloc σ) (bs : List Block) (m : BitVec 64) :
    TinyMalloc σ :=
  let block := BitVec.ofNat 64 (start.base + total bs)
  ((({ s with mallocEnd := block + m } : TinyMalloc σ).assign (link start bs) block).setSize block
    m).setNext block 0#64

/-- The block that a piece is taken out of, at `a`: a free block that is large enough, the
last block of the heap after it has been made larger, or a block appended, which may
have to be made larger as well. -/
inductive Taken (start : MallocStart) (s : TinyMalloc σ) (bs : List Block) (frame : Addr)
    (align r : BitVec 64) (result : Addr × TinyMalloc σ) : ℕ → Prop
  | found {pre post : List Block} {size : ℕ} (hbs : bs = pre ++ ⟨size, none⟩ :: post)
      (hfits : alignNeed align r (start.base + total pre) ≤ BitVec.ofNat 64 size)
      (hresult : result = memalignCarve r (link start pre)
        (BitVec.ofNat 64 (start.base + total pre)) (BitVec.ofNat 64 size)
        (beforeSize (BitVec.ofNat 64 (start.base + total pre)) align) s) :
      Taken start s bs frame align r result (start.base + total pre)
  | extended {pre : List Block} {size : ℕ} (hbs : bs = pre ++ [⟨size, none⟩])
      (hshort : ¬ alignNeed align r (start.base + total pre) ≤ BitVec.ofNat 64 size)
      (hcan : s.canAlloc frame
        (alignNeed align r (start.base + total pre) - BitVec.ofNat 64 size) = true)
      (hresult : result = memalignCarve r (link start pre)
        (BitVec.ofNat 64 (start.base + total pre)) (alignNeed align r (start.base + total pre))
        (beforeSize (BitVec.ofNat 64 (start.base + total pre)) align)
        (enlarged s (start.base + total pre) (alignNeed align r (start.base + total pre)))) :
      Taken start s bs frame align r result (start.base + total pre)
  | fresh (hlast : LastUsed bs)
      (hcan : s.canAlloc frame (alignFirst align r (start.base + total bs)) = true)
      (hfits : alignNeed align r (start.base + total bs) ≤
        alignFirst align r (start.base + total bs))
      (hresult : result = memalignCarve r (link start bs) (BitVec.ofNat 64 (start.base + total bs))
        (alignFirst align r (start.base + total bs))
        (beforeSize (BitVec.ofNat 64 (start.base + total bs)) align)
        (appended start s bs (alignFirst align r (start.base + total bs)))) :
      Taken start s bs frame align r result (start.base + total bs)
  | freshExtended (hlast : LastUsed bs)
      (hcan : s.canAlloc frame (alignFirst align r (start.base + total bs)) = true)
      (hshort : ¬ alignNeed align r (start.base + total bs) ≤
        alignFirst align r (start.base + total bs))
      (hsecond : (appended start s bs (alignFirst align r (start.base + total bs))).canAlloc frame
        (alignNeed align r (start.base + total bs) - alignFirst align r (start.base + total bs)) =
          true)
      (hresult : result = memalignCarve r (link start bs) (BitVec.ofNat 64 (start.base + total bs))
        (alignNeed align r (start.base + total bs))
        (beforeSize (BitVec.ofNat 64 (start.base + total bs)) align)
        (enlarged (appended start s bs (alignFirst align r (start.base + total bs)))
          (start.base + total bs) (alignNeed align r (start.base + total bs)))) :
      Taken start s bs frame align r result (start.base + total bs)

/-- What a call returns that ends so, and what it leaves. -/
def AlignResult (start : MallocStart) (s : TinyMalloc σ) (bs : List Block) (frame : Addr)
    (align r : BitVec 64) (result : Addr × TinyMalloc σ) : AlignWay → Prop
  | .refused => result = (0#64, s)
  | .late => result.1 = 0#64 ∧ FreeListChanged start bs result.2
  | .takes a => Taken start s bs frame align r result a

/-- The piece of a call that takes its block at `a`. -/
theorem Taken.piece {result : Addr × TinyMalloc σ} {a : ℕ}
    (h : Taken start s bs frame align r result a) : result.1 = alignPiece align a := by
  cases h with
  | found _ _ hresult =>
    rw [hresult]
    exact memalignCarve_fst _ _ _
  | extended _ _ _ hresult =>
    rw [hresult]
    exact memalignCarve_fst _ _ _
  | fresh _ _ _ hresult =>
    rw [hresult]
    exact memalignCarve_fst _ _ _
  | freshExtended _ _ _ _ hresult =>
    rw [hresult]
    exact memalignCarve_fst _ _ _

/-- The gap in front of a piece at the null pointer has room for a free block. -/
theorem room_of_null {a : ℕ} (ha8 : a % 8 = 0) (hk : k < 64)
    (halign : align = BitVec.ofNat 64 (2 ^ k)) (ha : a + 16 ≤ 2 ^ 64)
    (hnull : alignPiece align a = 0#64) :
    16 ≤ (beforeSize (BitVec.ofNat 64 a) align).toNat := by
  obtain ⟨hgap, -⟩ := beforeSize_gap ha8 hk
  rw [← halign] at hgap
  obtain ⟨hbefore, hne, -⟩ := gap_of_null ha hnull
  rcases hgap.room with hzero | hroom
  · omega
  · exact hroom

/-- A block cut in place for a piece at the null pointer. -/
theorem changed_found (hk : k < 64) (halign : align = BitVec.ofNat 64 (2 ^ k))
    (hr8 : r.toNat % 8 = 0) (h : Represents start s (pre ++ ⟨size, none⟩ :: post))
    (hfits : alignNeed align r (start.base + total pre) ≤ BitVec.ofNat 64 size)
    (hnull : alignPiece align (start.base + total pre) = 0#64) :
    FreeListChanged start (pre ++ ⟨size, none⟩ :: post)
      (memalignCarve r (link start pre) (BitVec.ofNat 64 (start.base + total pre))
        (BitVec.ofNat 64 size) (beforeSize (BitVec.ofNat 64 (start.base + total pre)) align) s).2 := by
  have hbelow := h.below
  have hpos := start.base_pos
  have hbase := start.aligned
  obtain ⟨hpre, hok, hpost, -, hhead⟩ := row_free.1 h.row
  have hpre8 := total_aligned hpre.ok
  have hsize : 16 ≤ size := hok.room
  simp only [total_append, total_cons] at hbelow
  obtain ⟨x, hl, hx, -, -⟩ := laid_append.1 h.laid
  have ha8 : (start.base + total pre) % 8 = 0 := by
    show (start.addr.toNat + total pre) % 8 = 0
    omega
  set a := start.base + total pre with ha
  have hroom := room_of_null ha8 hk halign (by omega) hnull
  obtain ⟨hbefore, hne, hblock⟩ := gap_of_null (by omega) hnull
  have hneed := BitVec.le_def.1 hfits
  unfold alignNeed at hneed
  set before := beforeSize (BitVec.ofNat 64 a) align
  have hr := r.isLt
  rw [BitVec.toNat_add, hbefore, BitVec.toNat_ofNat, Nat.mod_eq_of_lt (show size < 2 ^ 64 by omega)]
    at hneed
  -- the sum of the size and the gap has wrapped
  have hlarge : a + 8 ≤ r.toNat ∧ r.toNat - 8 ≤ a + size := by
    omega
  intro hchain
  obtain ⟨hl', hleft⟩ := @memalignCarve_null _ _ _ _ _ (BitVec.ofNat 64 size) _ hl hpre.ok _
    ha.symm (by omega) hx _ hroom hnull hr8 fun _ => hlarge.1
  obtain ⟨-, -, hs, hrest⟩ := FreeChain.behind hl' hchain
  rcases hleft with hs' | ⟨-, hnext⟩
  · have hsame := congrArg BitVec.toNat (hs'.symm.trans hs)
    rw [hbefore, BitVec.toNat_ofNat] at hsame
    omega
  · rw [hnext] at hrest
    cases hfree : freeBlocks (a + size) post with
    | nil =>
      rw [hfree] at hrest
      have hzero := congrArg BitVec.toNat (show BitVec.ofNat 64 (r.toNat - 8) = 0#64 from hrest)
      rw [BitVec.toNat_ofNat, Nat.mod_eq_of_lt (by omega)] at hzero
      have h0 : (0#64).toNat = 0 := rfl
      omega
    | cons d fl =>
      rw [hfree] at hrest
      have haddr := (freeBlocks_addr hpost.ok (by omega) (hfree ▸ List.mem_cons_self)).2 hhead
      have hd := congrArg BitVec.toNat hrest.1
      rw [BitVec.toNat_ofNat, Nat.mod_eq_of_lt (by omega)] at hd
      omega

/-- A size so large that another header makes it wrap. -/
theorem large_of_wrapped {before need : BitVec 64} (hneed : need - before = r)
    (h : ¬ need - before ≤ r + sizeofEntry) : 2 ^ 64 - 16 ≤ r.toNat := by
  rw [hneed, BitVec.le_def, BitVec.toNat_add] at h
  have h16 : sizeofEntry.toNat = 16 := rfl
  have hr := r.isLt
  omega

theorem alignNeed_sub (align r : BitVec 64) (a : ℕ) :
    alignNeed align r a - beforeSize (BitVec.ofNat 64 a) align = r :=
  BitVec.add_sub_cancel _ _

/-- The last block of the heap, made larger and cut for a piece at the null pointer. -/
theorem changed_extended (hk : k < 64) (halign : align = BitVec.ofNat 64 (2 ^ k))
    (hr8 : r.toNat % 8 = 0) (h : Represents start s (pre ++ [⟨size, none⟩]))
    (hnull : alignPiece align (start.base + total pre) = 0#64) :
    let a := start.base + total pre
    let need := alignNeed align r a
    FreeListChanged start (pre ++ [⟨size, none⟩])
      (memalignCarve r (link start pre) (BitVec.ofNat 64 a) need (beforeSize (BitVec.ofNat 64 a) align)
        (enlarged s a need)).2 := by
  intro a need hchain
  have hbelow := h.below
  have hbase := start.aligned
  obtain ⟨hpre, hok, -, -, -⟩ := row_free.1 h.row
  have hpre8 := total_aligned hpre.ok
  have hsize : 16 ≤ size := hok.room
  have ha : start.base + total pre = a := rfl
  simp only [total_append, total_cons, total_nil] at hbelow
  obtain ⟨x, hl, rfl, -, -⟩ := laid_append.1 h.laid
  have ha8 : a % 8 = 0 := by
    show (start.addr.toNat + total pre) % 8 = 0
    omega
  have hroom := room_of_null ha8 hk halign (by omega) hnull
  obtain ⟨hbefore, -, -⟩ := gap_of_null (by omega) hnull
  -- the sums have wrapped around, so that the size or the link left at the block is not the row's
  have hfront := (Front.refl hl).store hpre.ok need (le_refl _) (by omega)
  have hlarge : ¬ need - beforeSize (BitVec.ofNat 64 a) align ≤ r + sizeofEntry →
      2 ^ 64 - 16 ≤ r.toNat := large_of_wrapped (alignNeed_sub align r a)
  have hl1 : Laid (enlarged s a need).mem (enlarged s a need).freelist start.base pre
      (BitVec.ofNat 64 a) := hfront.laid
  obtain ⟨hl', hleft⟩ := memalignCarve_null hl1 hpre.ok rfl (by omega) rfl hroom hnull hr8
    fun hrest => by
      have := hlarge hrest
      omega
  obtain ⟨-, -, hs, hrest⟩ := FreeChain.behind hl' hchain
  rcases hleft with hs' | ⟨hwhole, hnext⟩
  · have hsame := congrArg BitVec.toNat (hs'.symm.trans hs)
    rw [hbefore, BitVec.toNat_ofNat] at hsame
    omega
  · have hr := r.isLt
    have hzero := congrArg BitVec.toNat (hnext.symm.trans hrest)
    rw [BitVec.toNat_ofNat, Nat.mod_eq_of_lt (by omega)] at hzero
    have h0 : (0#64).toNat = 0 := rfl
    have := hlarge hwhole
    omega

/-- A free list that leads past the row to a block. -/
theorem changed_of_leads {t : TinyMalloc σ} {a : ℕ} (hl : Laid t.mem t.freelist start.base bs
    (BitVec.ofNat 64 a)) (hpos : 0 < a) (hlt : a < 2 ^ 64) : FreeListChanged start bs t := by
  intro hchain
  rw [← List.append_nil bs] at hchain
  have hzero : BitVec.ofNat 64 a = 0#64 := FreeChain.behind hl hchain
  have := (ofNat_inj (x := a) (y := 0) hlt (by omega)).1 hzero
  omega

theorem appended_spec (h : Represents start s bs) (m : BitVec 64) :
    let s1 := appended start s bs m
    Laid s1.mem s1.freelist start.base bs (BitVec.ofNat 64 (start.base + total bs)) ∧
      s1.size (BitVec.ofNat 64 (start.base + total bs)) = m ∧
      s1.next (BitVec.ofNat 64 (start.base + total bs)) = 0#64 ∧
      s1.mallocEnd = BitVec.ofNat 64 (start.base + total bs) + m := by
  intro s1
  have hbelow := h.below
  set a := start.base + total bs with ha
  set s0 : TinyMalloc σ := { s with mallocEnd := BitVec.ofNat 64 a + m } with hs0
  have hlaid0 : Laid s0.mem s0.freelist start.base bs 0#64 := h.laid
  obtain ⟨hf1, -, -⟩ := assign_link hlaid0 h.row.ok (by omega) (BitVec.ofNat 64 a)
  have hs1 : s1 = ((s0.assign (link start bs) (BitVec.ofNat 64 a)).storeHeader (BitVec.ofNat 64 a)
      m).storeHeader (BitVec.ofNat 64 (a + 8)) 0#64 :=
    setNext_ofNat _ a 0#64
  have hf := (hf1.store h.row.ok m (q := a) (le_refl _) (by omega)).store
    h.row.ok 0#64 (q := a + 8) (by omega) (by omega)
  rw [← hs1] at hf
  refine ⟨hf.laid, ?_, ?_, ?_⟩
  · rw [hs1]
    refine (readLE64_writeLE64_disjoint _ _ (by omega) (by omega) (by omega)).trans ?_
    exact readLE64_writeLE64_same _ _ _
  · rw [next_ofNat, hs1]
    exact readLE64_writeLE64_same _ _ _
  · rw [hs1, storeHeader_mallocEnd, storeHeader_mallocEnd, assign_mallocEnd]

/-- The block at the end of the free list, cut for a piece at the null pointer. -/
theorem changed_end {t : TinyMalloc σ} {a : ℕ} {old : BitVec 64} (hk : k < 64)
    (halign : align = BitVec.ofNat 64 (2 ^ k)) (hr8 : r.toNat % 8 = 0) (h : Represents start s bs)
    (ha : start.base + total bs = a)
    (hl : Laid t.mem t.freelist start.base bs (BitVec.ofNat 64 a))
    (hnull : alignPiece align a = 0#64)
    (hrest : ¬ old - beforeSize (BitVec.ofNat 64 a) align ≤ r + sizeofEntry → a + 8 ≤ r.toNat) :
    FreeListChanged start bs (memalignCarve r (link start bs) (BitVec.ofNat 64 a) old
      (beforeSize (BitVec.ofNat 64 a) align) t).2 := by
  have hbelow := h.below
  have hpos := start.base_pos
  have hbase := start.aligned
  have hbs8 := total_aligned h.row.ok
  have ha8 : a % 8 = 0 := by
    rw [← ha]
    show (start.addr.toNat + total bs) % 8 = 0
    omega
  have hroom := room_of_null ha8 hk halign (by omega) hnull
  obtain ⟨hl', -⟩ := memalignCarve_null hl h.row.ok ha (by omega) rfl hroom hnull hr8 hrest
  exact changed_of_leads hl' (by omega) (by omega)

/-- When the space appended is what is needed, and the piece is at the null pointer, the
request is for more than what is below the block. -/
theorem fresh_rest {a : ℕ} (ha8 : a % 8 = 0) (ha : a + 16 ≤ 2 ^ 64) (hk : k < 64)
    (halign : align = BitVec.ofNat 64 (2 ^ k)) (hnull : alignPiece align a = 0#64)
    (hfits : alignNeed align r a ≤ alignFirst align r a)
    (hrest : ¬ alignFirst align r a - beforeSize (BitVec.ofNat 64 a) align ≤ r + sizeofEntry) :
    a + 8 ≤ r.toNat := by
  have hroom := room_of_null ha8 hk halign ha hnull
  obtain ⟨hbefore, -, -⟩ := gap_of_null ha hnull
  obtain ⟨-, hle, -⟩ := beforeSize_gap ha8 hk
  rw [← halign] at hle
  have hsub := alignNeed_sub align r a
  have hr := r.isLt
  set before := beforeSize (BitVec.ofNat 64 a) align with hdef
  set m := mAlign (BitVec.ofNat 64 a + 8#64) align with hm
  by_cases heq : m = before
  · have hfirst : alignFirst align r a = alignNeed align r a := by
      show r + m = r + before
      rw [heq]
    rw [hfirst] at hrest
    have := large_of_wrapped hsub hrest
    omega
  · have hne : m.toNat ≠ before.toNat := fun h => heq (BitVec.eq_of_toNat_eq h)
    have hsum : (r + before).toNat ≤ (r + m).toNat := BitVec.le_def.1 hfits
    rw [BitVec.toNat_add, BitVec.toNat_add] at hsum
    omega

/-- A call that takes its block where the piece is at the null pointer has changed the
free list. -/
theorem Taken.changed {result : Addr × TinyMalloc σ} {a : ℕ} (hk : k < 64)
    (halign : align = BitVec.ofNat 64 (2 ^ k)) (hr8 : r.toNat % 8 = 0) (hrep : Represents start s bs)
    (h : Taken start s bs frame align r result a) (hnull : alignPiece align a = 0#64) :
    FreeListChanged start bs result.2 := by
  have hbelow := hrep.below
  have hbase := start.aligned
  have hbs8 := total_aligned hrep.row.ok
  have ha8 : (start.base + total bs) % 8 = 0 := by
    show (start.addr.toNat + total bs) % 8 = 0
    omega
  cases h with
  | found hbs hfits hresult =>
    subst hbs hresult
    exact changed_found hk halign hr8 hrep hfits hnull
  | extended hbs _ _ hresult =>
    subst hbs hresult
    exact changed_extended hk halign hr8 hrep hnull
  | fresh _ _ hfits hresult =>
    subst hresult
    obtain ⟨hl, -⟩ := appended_spec hrep (alignFirst align r (start.base + total bs))
    exact changed_end hk halign hr8 hrep rfl hl hnull
      (fresh_rest ha8 hbelow hk halign hnull hfits)
  | freshExtended _ _ _ _ hresult =>
    subst hresult
    obtain ⟨hl, -⟩ := appended_spec hrep (alignFirst align r (start.base + total bs))
    have hfront := (Front.refl hl).store hrep.row.ok (alignNeed align r (start.base + total bs))
      (le_refl _) (by omega)
    refine changed_end hk halign hr8 hrep rfl hfront.laid hnull fun hrest => ?_
    obtain ⟨hbefore, -, -⟩ := gap_of_null hbelow hnull
    have := large_of_wrapped (alignNeed_sub align r _) hrest
    have := room_of_null ha8 hk halign hbelow hnull
    omega

/-- The loop after the blocks `pre`, none of which is large enough. -/
theorem memalignLoop_way (pre : List Block) {post : List Block} {fuel : ℕ} (frame : Addr)
    (align r : BitVec 64) (h : Represents start s (pre ++ post)) (hlast : post = [] → LastUsed pre)
    (hfuel : post.length < fuel) :
    ∃ result, memalignLoop frame align r fuel (link start pre) s = some result ∧
      AlignResult start s (pre ++ post) frame align r result
        (alignWay s frame align r (start.base + total pre) post) := by
  induction post generalizing pre fuel with
  | nil =>
    obtain ⟨fuel, rfl⟩ : ∃ f, fuel = f + 1 := ⟨fuel - 1, by simp at hfuel; omega⟩
    rw [List.append_nil] at h ⊢
    have hbelow := h.below
    have hpos := start.base_pos
    have hderef := deref_link h.laid h.row.ok h.lt.le
    have htop := h.top
    obtain ⟨hl1, hsize1, hnext1, hend1⟩ :=
      appended_spec h (alignFirst align r (start.base + total pre))
    have hround := @memalignBlock_way _ _ frame align r (link start pre)
      (memalignLoop frame align r fuel (.next (BitVec.ofNat 64 (start.base + total pre)))) _ _
      hsize1 True _ (iff_of_true ⟨hnext1, hend1⟩ trivial)
    dsimp only at hround
    rw [if_pos trivial] at hround
    set a := start.base + total pre with hadef
    have hstart : memalignLoop frame align r (fuel + 1) (link start pre) s =
        if !s.canAlloc frame (alignFirst align r a) then some (0#64, s)
        else memalignBlock frame align r (link start pre) (BitVec.ofNat 64 a) (alignFirst align r a)
          (memalignLoop frame align r fuel (.next (BitVec.ofNat 64 a)))
          (appended start s pre (alignFirst align r a)) := by
      rw [memalignLoop, if_pos hderef]
      dsimp only
      rw [htop]
      rfl
    have hsecond : ({ s with mallocEnd := BitVec.ofNat 64 a + alignFirst align r a } :
        TinyMalloc σ).canAlloc frame (alignNeed align r a - alignFirst align r a) =
        (appended start s pre (alignFirst align r a)).canAlloc frame
          (alignNeed align r a - alignFirst align r a) := by
      unfold canAlloc
      rw [hend1]
    rw [hstart, alignWay, hsecond]
    cases hfirst : s.canAlloc frame (alignFirst align r a)
    · exact ⟨_, rfl, rfl⟩
    · rw [if_neg (by simp), if_neg (by simp), hround]
      by_cases hfits : alignNeed align r a ≤ alignFirst align r a
      · rw [if_pos hfits, if_pos (.inl hfits)]
        exact ⟨_, rfl, .fresh (hlast rfl) hfirst hfits rfl⟩
      · rw [if_neg hfits]
        cases hcan : (appended start s pre (alignFirst align r a)).canAlloc frame
          (alignNeed align r a - alignFirst align r a)
        · rw [if_neg Bool.false_ne_true, if_neg (by simp [hfits])]
          exact ⟨_, rfl, rfl, changed_of_leads hl1 (by omega) (by omega)⟩
        · rw [if_pos rfl, if_pos (.inr rfl)]
          exact ⟨_, rfl, .freshExtended (hlast rfl) hfirst hfits hcan rfl⟩
  | cons b post ih =>
    obtain ⟨size, use⟩ := b
    rcases use with _ | m
    · obtain ⟨fuel, rfl⟩ : ∃ f, fuel = f + 1 := ⟨fuel - 1, by simp at hfuel; omega⟩
      have hat := h.atFree
      have hend := h.last_iff
      rw [hat.header] at hend
      have hround := memalignBlock_way frame align r (link start pre)
        (memalignLoop frame align r fuel (.next (BitVec.ofNat 64 (start.base + total pre))))
        hat.header hend
      dsimp only at hround
      unfold memalignLoop
      dsimp only
      rw [hat.pointer, if_neg hat.nonnull, hat.header, hround, alignWay]
      by_cases hfits : alignNeed align r (start.base + total pre) ≤ BitVec.ofNat 64 size
      · rw [if_pos hfits, if_pos hfits]
        exact ⟨_, rfl, .found rfl hfits rfl⟩
      · rw [if_neg hfits, if_neg hfits]
        by_cases hpost : post = []
        · subst hpost
          rw [if_pos rfl, if_pos rfl]
          cases hcan : s.canAlloc frame
            (alignNeed align r (start.base + total pre) - BitVec.ofNat 64 size)
          · exact ⟨_, rfl, rfl⟩
          · exact ⟨_, rfl, .extended rfl hfits hcan rfl⟩
        · rw [if_neg hpost, if_neg hpost, ← link_free pre size]
          have hassoc : pre ++ ⟨size, none⟩ :: post = (pre ++ [⟨size, none⟩]) ++ post := by simp
          rw [hassoc] at h ⊢
          have hrest := ih (pre ++ [⟨size, none⟩]) h (fun hnil => absurd hnil hpost)
            (by simp at hfuel; omega)
          rwa [total_append, total_cons, total_nil, Nat.add_zero, ← Nat.add_assoc] at hrest
    · -- a block handed out: the link stays the same
      have hassoc : pre ++ ⟨size, some m⟩ :: post = (pre ++ [⟨size, some m⟩]) ++ post := by simp
      rw [hassoc] at h ⊢
      have hrest := @ih (pre ++ [⟨size, some m⟩]) fuel h (fun _ => lastUsed_append_used pre size m)
        (by simp at hfuel; omega)
      rw [link_live pre size m, total_append, total_cons, total_nil, Nat.add_zero, ← Nat.add_assoc]
        at hrest
      rw [alignWay]
      exact hrest

/-- **How a call of `memalign` ends**, whatever wraps. -/
theorem memalign_way {sz : BitVec 64} (frame : Addr) (hgood : badAlign align = false)
    (h : Represents start s bs) :
    ∃ result, memalign frame align sz s = some result ∧
      AlignResult start s bs frame align (realSize sz) result
        (alignWay s frame align (realSize sz) start.base bs) := by
  unfold memalign
  rw [hgood, if_neg Bool.false_ne_true]
  exact memalignLoop_way [] frame align (realSize sz) h (fun _ => lastUsed_nil) h.length_lt

end Search

/-! ### Null results -/

/-- `memalign` returns null after it has stored to the heap: it has appended a block
and is refused more space, or the address of the aligned piece wraps to null. -/
def NullAfterStores (start : MallocStart) (s : TinyMalloc σ) (bs : List Block) (frame : Addr)
    (align sz : BitVec 64) : Prop :=
  badAlign align = false ∧
    match alignWay s frame align (realSize sz) start.base bs with
    | .refused => False
    | .late => True
    | .takes a => alignPiece align a = 0#64

theorem Represents.freeChain {s : TinyMalloc σ} {bs : List Block} (h : Represents start s bs) :
    FreeChain s s.freelist (freeBlocks start.base bs) :=
  freeChain_of_laid h.laid start.base_pos h.lt

theorem FreeListChanged.not_unchanged {s s' : TinyMalloc σ} {bs : List Block}
    (h : FreeListChanged start bs s') (hrep : Represents start s bs) :
    ¬ Unchanged start bs s s' :=
  fun hun => h (hun.free _ hrep.freeChain)

theorem memalign_null_iff {s : TinyMalloc σ} {bs : List Block} (h : Represents start s bs)
    (frame : Addr) (align sz : BitVec 64) :
    (∀ s', memalign frame align sz s = some (0#64, s') → Unchanged start bs s s') ↔
      ¬ NullAfterStores start s bs frame align sz := by
  cases hbad : badAlign align with
  | true =>
    refine iff_of_true (fun s' hrun => ?_) fun hnull => ?_
    · unfold memalign at hrun
      rw [if_pos hbad] at hrun
      obtain ⟨-, rfl⟩ := Prod.mk.inj (Option.some.inj hrun)
      exact Unchanged.refl _ _ _
    · exact absurd (hbad.symm.trans hnull.1) Bool.false_ne_true.symm
  | false =>
    obtain ⟨⟨p, s1⟩, hrun, hresult⟩ : ∃ result, memalign frame align sz s = some result ∧
        AlignResult start s bs frame align (realSize sz) result
          (alignWay s frame align (realSize sz) start.base bs) := memalign_way frame hbad h
    have hcall : (∀ s', memalign frame align sz s = some (0#64, s') → Unchanged start bs s s') ↔
        (p = 0#64 → Unchanged start bs s s1) := by
      refine ⟨fun hall hp => hall s1 (by rw [hrun, hp]), fun himp s' hrun' => ?_⟩
      obtain ⟨hp, rfl⟩ := Prod.mk.inj (Option.some.inj (hrun.symm.trans hrun'))
      exact himp hp
    rw [hcall]
    unfold NullAfterStores
    -- null at once, null after the heap has grown, or a piece, whose address may be null
    cases hway : alignWay s frame align (realSize sz) start.base bs with
    | refused =>
      rw [hway] at hresult
      obtain ⟨rfl, rfl⟩ := Prod.mk.inj hresult
      exact iff_of_true (fun _ => Unchanged.refl _ _ _) fun hnull => hnull.2
    | late =>
      rw [hway] at hresult
      obtain ⟨hp, hchanged⟩ := hresult
      exact iff_of_false (fun himp => hchanged.not_unchanged h (himp hp))
        (not_not.2 ⟨hbad, trivial⟩)
    | takes a =>
      rw [hway] at hresult
      obtain ⟨k, hk, halign⟩ := badAlign_eq_false.1 hbad
      have hp : p = alignPiece align a := hresult.piece
      by_cases hpiece : alignPiece align a = 0#64
      · have hchanged := hresult.changed hk halign (realSize_words sz) h hpiece
        exact iff_of_false (fun himp => hchanged.not_unchanged h (himp (hp.trans hpiece)))
          (not_not.2 ⟨hbad, hpiece⟩)
      · exact iff_of_true (fun hnull => absurd (hp.symm.trans hnull) hpiece) fun hnull =>
          hpiece hnull.2

/-- **A null result means that nothing has changed**, on every heap and with every
frame: for `malloc`, `calloc` and `realloc` always, for `memalign` exactly when it has
not stored to the heap before. -/
theorem null_unchanged_iff (start : MallocStart) (sBrk : SBrk σ) (s : TinyMalloc σ)
    (bs : List Block) (frame : Addr) (h : Represents start s bs) :
    (∀ sz s', malloc start sBrk frame sz s = some (0#64, s') → Unchanged start bs s s') ∧
    (∀ n elemSize s', calloc start sBrk frame n elemSize s = some (0#64, s') →
      Unchanged start bs s s') ∧
    (∀ p sz s', realloc start sBrk frame p sz s = some (0#64, s') → Unchanged start bs s s') ∧
    ∀ align sz, (∀ s', memalign frame align sz s = some (0#64, s') → Unchanged start bs s s') ↔
      ¬ NullAfterStores start s bs frame align sz := by
  refine ⟨fun sz s' hrun => ?_, fun n elemSize s' hrun => ?_, fun p sz s' hrun => ?_,
    memalign_null_iff h frame⟩
  · rw [malloc_null h hrun]
    exact Unchanged.refl _ _ _
  · rw [calloc_null_same h hrun]
    exact Unchanged.refl _ _ _
  · rw [realloc_null_same h hrun]
    exact Unchanged.refl _ _ _

/-- The small program once `malloc` has set `__malloc_end`. -/
def emptyHeap : TinyMalloc (BitVec 64) := { smallHeap with mallocEnd := 0x1000#64 }

theorem emptyHeap_represents : Represents smallStart emptyHeap [] :=
  represents_nil rfl rfl (by decide)

theorem null_unchanged_small :
    (∀ s', memalign 0x1060#64 16#64 24#64 emptyHeap = some (0#64, s') →
      Unchanged smallStart [] emptyHeap s') ↔
      ¬ NullAfterStores smallStart emptyHeap [] 0x1060#64 16#64 24#64 :=
  (null_unchanged_iff smallStart raiseBreak emptyHeap [] 0x1060#64 emptyHeap_represents).2.2.2
    16#64 24#64

/-- **`memalign` gives up with a block appended.**  There is room for the 40 bytes it
asks for first, and not for the 56 it needs. -/
theorem memalign_null_changes :
    ¬ (∀ s', memalign 0x1048#64 16#64 24#64 emptyHeap = some (0#64, s') →
      Unchanged smallStart [] emptyHeap s') := by
  intro hall
  obtain ⟨s', hrun, hend⟩ : ∃ s', memalign 0x1048#64 16#64 24#64 emptyHeap = some (0#64, s') ∧
      s'.mallocEnd = 0x1028#64 := by
    refine ⟨?_, ?_, ?_⟩
    rotate_left
    · unfold memalign
      rw [show pointerRounds = 18446744073709551615 + 1 from rfl, memalignLoop,
        if_neg (by decide), if_pos (show emptyHeap.deref Fle.freelist = 0#64 from rfl)]
      rfl
    · rfl
  have hsame := (hall s' hrun).top
  rw [hend] at hsame
  exact absurd hsame (by decide)

end TinyMalloc

end KeystoneSdk
