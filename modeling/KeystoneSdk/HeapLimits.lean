/-
The capacity of what a call of the allocator hands out, for every request.

* `Served` — a piece with room for the bytes asked for, inside the heap;
* `Taken.served`, `Taken.wrapped_iff` — what `memalign` hands out, when the sum of its
  size and its gap does not wrap, and when it does;
* `freeLoop_ends`, `memset_ends` — the loops behind a request whose size has wrapped end;
* **`served_iff`** — which requests are answered by null or by a piece large enough.
-/
import KeystoneSdk.HeapNull

open ByteMemory BlockHeap

namespace KeystoneSdk

namespace TinyMalloc

variable {σ : Type} {start : MallocStart} {sBrk : SBrk σ}

/-- The block of the piece at `p` has room for `n` bytes besides its header, and lies
between `__malloc_start` and `__malloc_end`. -/
structure Served (start : MallocStart) (n : ℕ) (p : Addr) (s : TinyMalloc σ) : Prop where
  capacity : n + 8 ≤ (s.size (p - 8#64)).toNat
  above : start.base ≤ (p - 8#64).toNat
  below : (p - 8#64).toNat + (s.size (p - 8#64)).toNat ≤ s.mallocEnd.toNat

/-- A call that returns null, or serves a request of `n` bytes. -/
def NotShortened (start : MallocStart) (n : ℕ) (call : Option (Addr × TinyMalloc σ)) : Prop :=
  ∀ p s, call = some (p, s) → p ≠ 0#64 → Served start n p s

theorem notShortened_some {n : ℕ} {call : Option (Addr × TinyMalloc σ)} {p : Addr}
    {s : TinyMalloc σ} (h : call = some (p, s)) :
    NotShortened start n call ↔ (p ≠ 0#64 → Served start n p s) := by
  constructor
  · intro hall hp
    exact hall p s h hp
  · intro himp q t hrun hq
    obtain ⟨rfl, rfl⟩ := Prod.mk.inj (Option.some.inj (h.symm.trans hrun))
    exact himp hq

theorem notShortened_null {n : ℕ} {call : Option (Addr × TinyMalloc σ)} {s : TinyMalloc σ}
    (h : call = some (0#64, s)) : NotShortened start n call :=
  (notShortened_some h).2 fun hne => absurd rfl hne

/-- No heap serves a request that comes within a header of the address space. -/
theorem Served.request_lt {n : ℕ} {p : Addr} {s : TinyMalloc σ} (h : Served start n p s) :
    n + 16 ≤ 2 ^ 64 := by
  have hcap := h.capacity
  have habove := h.above
  have hbelow := h.below
  have hend := s.mallocEnd.isLt
  have hpos := start.base_pos
  have hbase : start.base % 8 = 0 := start.aligned
  omega

/-- A piece of a heap. -/
theorem Represents.served {s : TinyMalloc σ} {bs : List Block} {q : Chunk}
    (h : Represents start s bs) (hq : q ∈ chunks start.base bs) :
    Served start q.request q.ptr s := by
  obtain ⟨pre, size, post, rfl, hptr⟩ := exists_block_of_mem_chunks hq
  have hfits : q.request + 8 ≤ size := (row_used.1 h.row).2.1.fits q.request rfl
  have hbelow := h.below
  have htop := h.top_toNat
  simp only [total_append, total_cons] at hbelow htop
  have hblock : q.ptr - 8#64 = BitVec.ofNat 64 (start.base + total pre) := by
    rw [hptr]
    exact ofNat_sub_ofNat (y := 8) (by omega) (by omega)
  have hsize : s.size (q.ptr - 8#64) = BitVec.ofNat 64 size := by
    rw [hblock]
    exact h.atUsed.2.1
  refine ⟨?_, ?_, ?_⟩
  · rw [hsize, BitVec.toNat_ofNat]
    omega
  · rw [hblock, BitVec.toNat_ofNat]
    omega
  · rw [hsize, hblock, BitVec.toNat_ofNat, BitVec.toNat_ofNat]
    omega

theorem Gives.served {s s' : TinyMalloc σ} {bs' : List Block} {others : List Chunk} {p : Addr}
    {n : ℕ} (h : Gives start s s' bs' others p n) : Served start n p s' :=
  h.represents.served h.mem

/-- `CAN_ALLOC_P` with a frame that is the minimum gap above the heap. -/
theorem canAlloc_le {s : TinyMalloc σ} {frame : Addr} {required : BitVec 64}
    (hframe : s.mallocEnd.toNat + 32 ≤ frame.toNat) (hcan : s.canAlloc frame required = true) :
    s.mallocEnd.toNat + required.toNat + 32 ≤ frame.toNat := by
  have hf := frame.isLt
  have hgap : (frame - s.mallocEnd - minimumGap).toNat = frame.toNat - s.mallocEnd.toNat - 32 := by
    have h32 : minimumGap.toNat = 32 := rfl
    rw [BitVec.toNat_sub, BitVec.toNat_sub, h32]
    omega
  have hreq := BitVec.le_def.1 (of_decide_eq_true hcan)
  rw [hgap] at hreq
  omega

/-! ### Pieces of `memalign` -/

section Aligned

variable {s t : TinyMalloc σ} {bs pre post : List Block} {size k a n : ℕ} {align r : BitVec 64}
  {frame : Addr} {result : Addr × TinyMalloc σ}

/-- The header in front of a piece behind a gap is the last word stored. -/
theorem memalignCarve_header (nextfree : Fle) (block : Addr) (old before : BitVec 64)
    (hne : before ≠ 0#64) :
    let s' := (memalignCarve r nextfree block old before t).2
    s'.size (block + before) = (if old - before ≤ r + sizeofEntry then old - before else r) ∧
      s'.mallocEnd = t.mallocEnd := by
  intro s'
  have hs' : s' = (memalignCarve r nextfree block old before t).2 := rfl
  unfold memalignCarve at hs'
  rw [if_pos hne] at hs'
  dsimp only at hs'
  by_cases hwhole : old - before ≤ r + sizeofEntry
  · rw [if_pos hwhole] at hs' ⊢
    rw [hs']
    exact ⟨readLE64_writeLE64_same _ _ _, rfl⟩
  · rw [if_neg hwhole] at hs' ⊢
    rw [hs']
    exact ⟨readLE64_writeLE64_same _ _ _, rfl⟩

/-- The wrapped sum of a size and a gap. -/
theorem alignNeed_toNat (align r : BitVec 64) (a : ℕ) :
    (alignNeed align r a).toNat = (r.toNat + gapAt align a) % 2 ^ 64 :=
  BitVec.toNat_add _ _

theorem alignNeed_ofNat {R : ℕ} (hr : r = BitVec.ofNat 64 R) :
    alignNeed align r a = BitVec.ofNat 64 (gapAt align a + R) := by
  rw [BitVec.ofNat_add, ← ofNat_gapAt, ← hr]
  exact BitVec.add_comm _ _

theorem alignFirst_ofNat {R : ℕ} (hr : r = BitVec.ofNat 64 R) :
    alignFirst align r a = BitVec.ofNat 64 (firstNeed align R a) := by
  unfold firstNeed
  rw [BitVec.ofNat_add, ofNat_toNat, ← hr]
  rfl

/-- The heap after `memalign` has appended a block. -/
theorem appended_represents {R : ℕ} (hr : r = BitVec.ofNat 64 R) (hR : 16 ≤ R) (hR8 : R % 8 = 0)
    (h : Represents start s bs) (hlast : LastUsed bs) (hk : k < 64)
    (halign : align = BitVec.ofNat 64 (2 ^ k))
    (hwrap : R + gapAt align (start.base + total bs) < 2 ^ 64)
    (hframe : s.mallocEnd.toNat + 32 ≤ frame.toNat)
    (hcan : s.canAlloc frame (alignFirst align r (start.base + total bs)) = true) :
    Represents start (appended start s bs (alignFirst align r (start.base + total bs)))
      (bs ++ [⟨firstNeed align R (start.base + total bs), none⟩]) := by
  have hbase := start.aligned
  have hbs8 := total_aligned h.row.ok
  have ha8 : (start.base + total bs) % 8 = 0 := by
    show (start.addr.toNat + total bs) % 8 = 0
    omega
  obtain ⟨-, hle, hm8, -⟩ := beforeSize_gap ha8 hk
  rw [← halign] at hle hm8
  have hmle : firstNeed align R (start.base + total bs) ≤ R + gapAt align (start.base + total bs) :=
    Nat.add_le_add_left hle R
  have hmR : R ≤ firstNeed align R (start.base + total bs) := Nat.le_add_right _ _
  have hmwords : firstNeed align R (start.base + total bs) % 8 = 0 := by
    show (R + (mAlign _ align).toNat) % 8 = 0
    omega
  have hroom := canAlloc_le hframe hcan
  have hf := frame.isLt
  rw [alignFirst_ofNat hr] at hroom ⊢
  rw [BitVec.toNat_ofNat, Nat.mod_eq_of_lt (by omega), h.top_toNat] at hroom
  obtain ⟨hrow, -, -⟩ := growFree h hlast (by omega) hmwords
    (show start.base + total bs + firstNeed align R (start.base + total bs) + 16 ≤ 2 ^ 64 by omega)
  rw [BitVec.ofNat_add (start.base + total bs) (firstNeed align R (start.base + total bs))] at hrow
  exact hrow

/-- A block at the end of the heap that is made larger and cut. -/
theorem served_enlarged {R : ℕ} (hr : r = BitVec.ofNat 64 R) (hR : 16 ≤ R) (hR8 : R % 8 = 0)
    (hn : n + 8 ≤ R) (hk : k < 64) (halign : align = BitVec.ofNat 64 (2 ^ k))
    (h : Represents start t (pre ++ [⟨size, none⟩])) (hframe : t.mallocEnd.toNat + 32 ≤ frame.toNat)
    (hwrap : R + gapAt align (start.base + total pre) < 2 ^ 64)
    (hshort : ¬ alignNeed align r (start.base + total pre) ≤ BitVec.ofNat 64 size)
    (hcan : t.canAlloc frame
      (alignNeed align r (start.base + total pre) - BitVec.ofNat 64 size) = true) :
    let result := memalignCarve r (link start pre) (BitVec.ofNat 64 (start.base + total pre))
      (alignNeed align r (start.base + total pre))
      (beforeSize (BitVec.ofNat 64 (start.base + total pre)) align)
      (enlarged t (start.base + total pre) (alignNeed align r (start.base + total pre)))
    Served start n result.1 result.2 := by
  intro result
  have htop := h.top_toNat
  have hbelow := h.below
  have hf := frame.isLt
  have hroom := canAlloc_le hframe hcan
  simp only [total_append, total_cons, total_nil] at htop hbelow
  have hres : result = memalignCarve r (link start pre)
      (BitVec.ofNat 64 (start.base + total pre)) (alignNeed align r (start.base + total pre))
      (beforeSize (BitVec.ofNat 64 (start.base + total pre)) align)
      (enlarged t (start.base + total pre) (alignNeed align r (start.base + total pre))) := rfl
  have hgt : size < gapAt align (start.base + total pre) + R := by
    rw [alignNeed_ofNat hr] at hshort
    exact Nat.not_le.1 fun hle => hshort ((ofNat_le_ofNat (by omega) (by omega)).2 hle)
  rw [alignNeed_ofNat hr, ofNat_sub_ofNat hgt.le (by omega), BitVec.toNat_ofNat,
    Nat.mod_eq_of_lt (by omega)] at hroom
  obtain ⟨⟨bs', hhanded⟩, -, -, -⟩ := extend_outcome hk halign h hR hR8 hn
    (show start.base + total pre + (gapAt align (start.base + total pre) + R) + 16 ≤ 2 ^ 64 by omega)
  rw [alignNeed_ofNat hr, ofNat_gapAt, hr] at hres
  unfold enlarged at hres
  rw [← BitVec.ofNat_add] at hres
  rw [hres]
  exact (hhanded.gives h).served

/-- What `memalign` hands out when the sum of its size and its gap does not wrap. -/
theorem Taken.served {R : ℕ} (hr : r = BitVec.ofNat 64 R) (hR : 16 ≤ R) (hR8 : R % 8 = 0)
    (hn : n + 8 ≤ R) (hk : k < 64) (halign : align = BitVec.ofNat 64 (2 ^ k))
    (h : Represents start s bs) (hframe : s.mallocEnd.toNat + 32 ≤ frame.toNat)
    (htaken : Taken start s bs frame align r result a) (hwrap : R + gapAt align a < 2 ^ 64) :
    Served start n result.1 result.2 := by
  have hf := frame.isLt
  -- a block that fits, or the last one made larger, either found or appended for the call
  cases htaken with
  | @found pre post size hbs hfits hresult =>
    subst hbs
    have hbelow := h.below
    simp only [total_append, total_cons] at hbelow
    have hle : R + gapAt align (start.base + total pre) ≤ size := by
      rw [alignNeed_ofNat hr] at hfits
      have := (ofNat_le_ofNat (by omega) (by omega)).1 hfits
      omega
    obtain ⟨⟨bs', hhanded⟩, -, -, -⟩ := carve_outcome hk halign h hR hR8 hn hle
    rw [hresult, hr, ofNat_gapAt]
    exact (hhanded.gives h).served
  | @extended pre size hbs hshort hcan hresult =>
    subst hbs
    rw [hresult]
    exact served_enlarged hr hR hR8 hn hk halign h hframe hwrap hshort hcan
  | fresh hlast hcan hfits hresult =>
    have h1 := appended_represents hr hR hR8 h hlast hk halign hwrap hframe hcan
    have hbelow1 := h1.below
    simp only [total_append, total_cons, total_nil] at hbelow1
    have hle : R + gapAt align (start.base + total bs) ≤
        firstNeed align R (start.base + total bs) := by
      rw [alignNeed_ofNat hr, alignFirst_ofNat hr] at hfits
      have := (ofNat_le_ofNat (by omega) (by omega)).1 hfits
      omega
    obtain ⟨⟨bs', hhanded⟩, -, -, -⟩ := carve_outcome hk halign h1 hR hR8 hn hle
    rw [alignFirst_ofNat hr] at h1 hhanded
    rw [hresult, alignFirst_ofNat hr, ofNat_gapAt, hr]
    exact (hhanded.gives h1).served
  | freshExtended hlast hcan hshort hsecond hresult =>
    have h1 := appended_represents hr hR hR8 h hlast hk halign hwrap hframe hcan
    have htop1 := h1.top_toNat
    have hbelow1 := h1.below
    have hroom := canAlloc_le hframe hcan
    simp only [total_append, total_cons, total_nil] at htop1 hbelow1
    rw [alignFirst_ofNat hr, BitVec.toNat_ofNat, Nat.mod_eq_of_lt (by omega), h.top_toNat] at hroom
    rw [hresult]
    have hframe1 : (appended start s bs (alignFirst align r (start.base + total bs))).mallocEnd.toNat +
        32 ≤ frame.toNat := by
      omega
    refine served_enlarged hr hR hR8 hn hk halign h1 hframe1 hwrap ?_ ?_
    · rw [← alignFirst_ofNat hr]
      exact hshort
    · rw [← alignFirst_ofNat hr]
      exact hsecond

/-- A piece behind a gap, in numbers. -/
theorem served_behind {s' : TinyMalloc σ} {p : Addr} {v : BitVec 64} (ha : a < 2 ^ 64)
    (hp : p = alignPiece align a)
    (hsize : s'.size (BitVec.ofNat 64 a + beforeSize (BitVec.ofNat 64 a) align) = v) :
    Served start n p s' ↔ n + 8 ≤ v.toNat ∧ start.base ≤ (a + gapAt align a) % 2 ^ 64 ∧
      (a + gapAt align a) % 2 ^ 64 + v.toNat ≤ s'.mallocEnd.toNat := by
  have hblock : p - 8#64 = BitVec.ofNat 64 a + beforeSize (BitVec.ofNat 64 a) align := by
    rw [hp]
    exact BitVec.add_sub_cancel _ _
  have haddr : (p - 8#64).toNat = (a + gapAt align a) % 2 ^ 64 := by
    rw [hblock, BitVec.toNat_add, BitVec.toNat_ofNat, Nat.mod_eq_of_lt ha]
    rfl
  constructor
  · rintro ⟨h1, h2, h3⟩
    rw [hblock, hsize] at h1
    rw [haddr] at h2 h3
    rw [hblock, hsize] at h3
    exact ⟨h1, h2, h3⟩
  · rintro ⟨h1, h2, h3⟩
    refine ⟨?_, ?_, ?_⟩
    · rw [hblock, hsize]
      exact h1
    · rw [haddr]
      exact h2
    · rw [haddr, hblock, hsize]
      exact h3

/-- The piece of a block at the end of the heap that has been made larger, when the sum has
wrapped: its header says `r`, and the heap ends where the block does. -/
theorem enlarged_wrapped_iff (nextfree : Fle) (ha : a < 2 ^ 64) (hn : n + 8 ≤ r.toNat)
    (hwrap : 2 ^ 64 ≤ r.toNat + gapAt align a)
    (hroom : a + (alignNeed align r a).toNat < 2 ^ 64) :
    let result := memalignCarve r nextfree (BitVec.ofNat 64 a) (alignNeed align r a)
      (beforeSize (BitVec.ofNat 64 a) align) (enlarged t a (alignNeed align r a))
    Served start n result.1 result.2 ↔ start.base + 2 ^ 64 ≤ a + gapAt align a := by
  intro result
  have hr := r.isLt
  have hne : beforeSize (BitVec.ofNat 64 a) align ≠ 0#64 := by
    intro hzero
    have hgap : gapAt align a = 0 := congrArg BitVec.toNat hzero
    omega
  obtain ⟨hsize, hend⟩ := @memalignCarve_header _ (enlarged t a (alignNeed align r a)) r nextfree
    (BitVec.ofNat 64 a) (alignNeed align r a) _ hne
  rw [alignNeed_sub, ite_self] at hsize
  have hend' : result.2.mallocEnd.toNat = a + (alignNeed align r a).toNat := by
    refine (congrArg BitVec.toNat hend).trans ?_
    show (BitVec.ofNat 64 a + alignNeed align r a).toNat = _
    rw [BitVec.toNat_add, BitVec.toNat_ofNat]
    omega
  have hgap : gapAt align a < 2 ^ 64 := BitVec.isLt _
  have hbase := start.base_pos
  rw [served_behind ha (memalignCarve_fst _ _ _) hsize, hend']
  rw [alignNeed_toNat] at hroom ⊢
  omega

/-- What `memalign` hands out when the sum of its size and its gap wraps: the piece is
behind the end of the address space, so at its start, and with luck inside the heap. -/
theorem Taken.wrapped_iff (hk : k < 64) (halign : align = BitVec.ofNat 64 (2 ^ k))
    (hn : n + 8 ≤ r.toNat) (hn' : r.toNat ≤ n + 16) (h : Represents start s bs)
    (hframe : s.mallocEnd.toNat + 32 ≤ frame.toNat)
    (htaken : Taken start s bs frame align r result a)
    (hwrap : 2 ^ 64 ≤ r.toNat + gapAt align a) :
    Served start n result.1 result.2 ↔ start.base + 2 ^ 64 ≤ a + gapAt align a := by
  have hr := r.isLt
  have hf := frame.isLt
  have hpos := start.base_pos
  have hbelow := h.below
  have htop := h.top_toNat
  have h16 : sizeofEntry.toNat = 16 := rfl
  have hgap : gapAt align a < 2 ^ 64 := BitVec.isLt _
  have hne : beforeSize (BitVec.ofNat 64 a) align ≠ 0#64 := by
    intro hzero
    have hgap : gapAt align a = 0 := congrArg BitVec.toNat hzero
    omega
  have hold : ∀ old : BitVec 64, (old - beforeSize (BitVec.ofNat 64 a) align).toNat =
      (2 ^ 64 - gapAt align a + old.toNat) % 2 ^ 64 := fun old => BitVec.toNat_sub _ _
  have hpiece := htaken.piece
  cases htaken with
  | @found pre post size hbs hfits hresult =>
    subst hbs
    simp only [total_append, total_cons] at hbelow htop
    obtain ⟨hsize, hend⟩ := @memalignCarve_header _ s r (link start pre)
      (BitVec.ofNat 64 (start.base + total pre)) (BitVec.ofNat 64 size) _ hne
    rw [← hresult] at hsize hend
    have hneed := BitVec.le_def.1 hfits
    rw [alignNeed_toNat, BitVec.toNat_ofNat, Nat.mod_eq_of_lt (show size < 2 ^ 64 by omega)] at hneed
    have hsub := hold (BitVec.ofNat 64 size)
    rw [BitVec.toNat_ofNat, Nat.mod_eq_of_lt (show size < 2 ^ 64 by omega)] at hsub
    rw [served_behind (by omega) hpiece hsize, hend, htop]
    split
    · rw [hsub]
      omega
    · omega
  | @extended pre size hbs hshort hcan hresult =>
    subst hbs
    simp only [total_append, total_cons, total_nil] at hbelow htop
    have hroom := canAlloc_le hframe hcan
    have hneed := Nat.not_le.1 fun hle => hshort (BitVec.le_def.2 hle)
    rw [BitVec.toNat_ofNat, Nat.mod_eq_of_lt (show size < 2 ^ 64 by omega)] at hneed
    rw [BitVec.toNat_sub, BitVec.toNat_ofNat, Nat.mod_eq_of_lt (show size < 2 ^ 64 by omega)] at hroom
    rw [hresult]
    exact enlarged_wrapped_iff (link start pre) (by omega) hn hwrap (by omega)
  | fresh hlast hcan hfits hresult =>
    obtain ⟨hsize, hend⟩ := @memalignCarve_header _
      (appended start s bs (alignFirst align r (start.base + total bs))) r (link start bs)
      (BitVec.ofNat 64 (start.base + total bs)) (alignFirst align r (start.base + total bs)) _ hne
    obtain ⟨-, -, -, hend1⟩ := appended_spec h (alignFirst align r (start.base + total bs))
    have hroom := canAlloc_le hframe hcan
    have hneed := BitVec.le_def.1 hfits
    rw [alignNeed_toNat] at hneed
    have hsub := hold (alignFirst align r (start.base + total bs))
    have hend' : result.2.mallocEnd.toNat =
        start.base + total bs + (alignFirst align r (start.base + total bs)).toNat := by
      rw [hresult, hend, hend1, BitVec.toNat_add, BitVec.toNat_ofNat]
      omega
    rw [← hresult] at hsize
    -- what is asked for first is at most what is needed, before anything wraps
    have hbase := start.aligned
    have hbs8 := total_aligned h.row.ok
    have ha8 : (start.base + total bs) % 8 = 0 := by
      show (start.addr.toNat + total bs) % 8 = 0
      omega
    obtain ⟨-, hle, -⟩ := beforeSize_gap ha8 hk
    rw [← halign] at hle
    have hle' : (mAlign (BitVec.ofNat 64 (start.base + total bs) + 8#64) align).toNat ≤
        gapAt align (start.base + total bs) := hle
    have hfirst : (alignFirst align r (start.base + total bs)).toNat = (r.toNat +
        (mAlign (BitVec.ofNat 64 (start.base + total bs) + 8#64) align).toNat) % 2 ^ 64 :=
      BitVec.toNat_add _ _
    rw [served_behind (by omega) hpiece hsize, hend']
    split
    · rw [hsub]
      omega
    · omega
  | freshExtended hlast hcan hshort hsecond hresult =>
    obtain ⟨-, -, -, hend1⟩ := appended_spec h (alignFirst align r (start.base + total bs))
    have hroom := canAlloc_le hframe hcan
    have hneed := Nat.not_le.1 fun hle => hshort (BitVec.le_def.2 hle)
    have hend' : (appended start s bs (alignFirst align r (start.base + total bs))).mallocEnd.toNat =
        start.base + total bs + (alignFirst align r (start.base + total bs)).toNat := by
      rw [hend1, BitVec.toNat_add, BitVec.toNat_ofNat]
      omega
    have hroom2 := canAlloc_le (by omega) hsecond
    rw [BitVec.toNat_sub, hend'] at hroom2
    rw [hresult]
    exact enlarged_wrapped_iff (link start bs) (by omega) hn hwrap (by omega)

end Aligned

/-! ### Sizes that have wrapped -/

theorem realSize_wrapped {sz : BitVec 64} (h : ¬ sz.toNat + 16 ≤ 2 ^ 64) :
    (realSize sz).toNat ≤ 8 := by
  have hlt := sz.isLt
  have halign : (mAlign sz 8#64).toNat = (2 ^ 64 - sz.toNat) % 2 ^ 3 :=
    mAlign_toNat sz (k := 3) (by omega)
  have h8 : (8#64).toNat = 8 := rfl
  have hsmall : ¬ sz < sizeofEntry - 8#64 := by
    have hbound : (sizeofEntry - 8#64).toNat = 8 := rfl
    rw [BitVec.lt_def, hbound]
    omega
  unfold realSize
  rw [if_neg hsmall, BitVec.toNat_add, BitVec.toNat_add, halign, h8]
  omega

/-- The loop of `free` ends on any free list, whatever block it is given. -/
theorem freeLoop_ends {t : TinyMalloc σ} (block : Addr) {l : Fle} {fl : List FreeBlock} {fuel : ℕ}
    (h : FreeChain t (t.deref l) fl) (hfuel : fl.length < fuel) :
    ∃ t', freeLoop block fuel l t = some t' := by
  induction fl generalizing l fuel with
  | nil =>
    obtain ⟨fuel, rfl⟩ : ∃ f, fuel = f + 1 := ⟨fuel - 1, by simp at hfuel; omega⟩
    have hnull : t.deref l = 0#64 := h
    rw [freeLoop, if_pos hnull]
    exact ⟨_, rfl⟩
  | cons b fl ih =>
    obtain ⟨fuel, rfl⟩ : ∃ f, fuel = f + 1 := ⟨fuel - 1, by simp at hfuel; omega⟩
    obtain ⟨-, hnonnull, -, hrest⟩ := h
    rw [freeLoop, if_neg hnonnull]
    dsimp only
    split
    · split
      · exact ⟨_, rfl⟩
      · exact ⟨_, rfl⟩
    · split
      · exact ⟨_, rfl⟩
      · split
        · exact ⟨_, rfl⟩
        · exact @ih (.next (t.deref l)) fuel hrest (by simp at hfuel; omega)

theorem FreeChain.congr {t t' : TinyMalloc σ} {v : Addr} {fl : List FreeBlock}
    (h : FreeChain t v fl)
    (hsame : ∀ b ∈ fl, t'.size b.addr = t.size b.addr ∧ t'.next b.addr = t.next b.addr) :
    FreeChain t' v fl := by
  induction fl generalizing v with
  | nil => exact h
  | cons b fl ih =>
    obtain ⟨rfl, hnonnull, hs, hrest⟩ := h
    obtain ⟨hsize, hnext⟩ := hsame b List.mem_cons_self
    refine ⟨rfl, hnonnull, hsize.trans hs, ?_⟩
    rw [hnext]
    exact ih hrest fun d hd => hsame d (List.mem_cons_of_mem _ hd)

theorem freeBlocks_append (a : ℕ) (pre post : List Block) :
    freeBlocks a (pre ++ post) = freeBlocks a pre ++ freeBlocks (a + total pre) post := by
  induction pre generalizing a with
  | nil => rfl
  | cons b pre ih =>
    obtain ⟨size, use | n⟩ := b
    · rw [List.cons_append, freeBlocks, freeBlocks, ih, total_cons, Nat.add_assoc, List.cons_append]
    · rw [List.cons_append, freeBlocks, freeBlocks, ih, total_cons, Nat.add_assoc]

theorem freeBlocks_length (a : ℕ) (bs : List Block) : (freeBlocks a bs).length ≤ bs.length := by
  induction bs generalizing a with
  | nil => exact le_refl _
  | cons b bs ih =>
    obtain ⟨size, use | n⟩ := b
    · exact Nat.succ_le_succ (ih _)
    · exact (ih _).trans (Nat.le_succ _)

theorem freeBlocks_inside {a : ℕ} {bs : List Block} (hok : ∀ b ∈ bs, b.Ok)
    (hend : a + total bs < 2 ^ 64) {d : FreeBlock} (hd : d ∈ freeBlocks a bs) :
    a ≤ d.addr.toNat ∧ d.addr.toNat + 16 ≤ a + total bs := by
  refine ⟨(freeBlocks_addr hok hend hd).1, ?_⟩
  induction bs generalizing a with
  | nil => exact absurd hd List.not_mem_nil
  | cons b bs ih =>
    have hok' : ∀ c ∈ bs, c.Ok := fun c hc => hok c (List.mem_cons_of_mem _ hc)
    have hroom := (hok b List.mem_cons_self).room
    rw [total_cons, ← Nat.add_assoc] at hend ⊢
    obtain ⟨size, use | n⟩ := b
    · rcases List.mem_cons.1 hd with rfl | hd
      · show (BitVec.ofNat 64 a).toNat + 16 ≤ _
        dsimp only at hend hroom ⊢
        rw [BitVec.toNat_ofNat, Nat.mod_eq_of_lt (by omega)]
        omega
      · exact ih hok' hend hd
    · exact ih hok' hend hd

section Wrapped

variable {s : TinyMalloc σ} {pre post : List Block} {size n : ℕ} {sz : BitVec 64} {frame : Addr}

/-- Stores to the first two words of a block handed out leave the free list alone. -/
theorem freeChain_cut (h : Represents start s (pre ++ ⟨size, some n⟩ :: post)) {r : ℕ} (hr : r ≤ 8)
    (v w : BitVec 64) :
    let t := (s.setSize (BitVec.ofNat 64 (start.base + total pre)) v).setSize
      (BitVec.ofNat 64 (start.base + total pre + r)) w
    FreeChain t t.freelist (freeBlocks start.base (pre ++ ⟨size, some n⟩ :: post)) := by
  intro t
  have hchain : FreeChain s s.freelist _ := h.freeChain
  refine @FreeChain.congr _ s t _ _ hchain fun d hd => ?_
  have hlt := h.lt
  obtain ⟨hpre, hok, hpost⟩ := row_used.1 h.row
  have hsize : 16 ≤ size := hok.room
  have hbelow := h.below
  simp only [total_append, total_cons] at hlt hbelow
  -- the free blocks are on either side of the block
  have hapart : start.base ≤ d.addr.toNat ∧ d.addr.toNat + 16 ≤ start.base + total pre ∨
      start.base + total pre + size ≤ d.addr.toNat ∧
        d.addr.toNat + 16 ≤ start.base + total pre + size + total post := by
    rw [freeBlocks_append] at hd
    rcases List.mem_append.1 hd with hd | hd
    · exact .inl (freeBlocks_inside hpre.ok (by omega) hd)
    · exact .inr (freeBlocks_inside hpost.ok (by omega) hd)
  have haddr : d.addr = BitVec.ofNat 64 d.addr.toNat := (ofNat_toNat _).symm
  have hmem : t.mem = writeLE64 (writeLE64 s.mem (BitVec.ofNat 64 (start.base + total pre)) v)
      (BitVec.ofNat 64 (start.base + total pre + r)) w := rfl
  have hread : ∀ x, (x + 8 ≤ start.base + total pre ∨ start.base + total pre + size ≤ x) →
      x + 8 ≤ 2 ^ 64 →
      readLE64 t.mem (BitVec.ofNat 64 x) = readLE64 s.mem (BitVec.ofNat 64 x) := by
    intro x hx hx64
    rw [hmem, readLE64_writeLE64_disjoint _ _ (by omega) hx64 (by omega),
      readLE64_writeLE64_disjoint _ _ (by omega) hx64 (by omega)]
  rw [haddr, next_ofNat, next_ofNat]
  exact ⟨hread _ (by omega) (by omega), hread _ (by omega) (by omega)⟩

/-- A piece whose new size wraps stays where it is. -/
theorem realloc_wrapped (sBrk : SBrk σ) (frame : Addr)
    (h : Represents start s (pre ++ ⟨size, some n⟩ :: post)) (hsz : ¬ sz.toNat + 16 ≤ 2 ^ 64) :
    ∃ s', realloc start sBrk frame (BitVec.ofNat 64 (start.base + total pre + 8)) sz s =
      some (BitVec.ofNat 64 (start.base + total pre + 8), s') := by
  have hpos := start.base_pos
  have hlen := h.length_lt
  have hbelow := h.below
  simp only [total_append, total_cons] at hbelow
  have hsize : 16 ≤ size := (row_used.1 h.row).2.1.room
  have hr := realSize_wrapped hsz
  set p := BitVec.ofNat 64 (start.base + total pre + 8) with hpdef
  have hp : p ≠ 0#64 := by
    intro hzero
    have := (ofNat_inj (x := start.base + total pre + 8) (y := 0) (by omega) (by omega)).1 hzero
    omega
  have hblock : p - 8#64 = BitVec.ofNat 64 (start.base + total pre) :=
    ofNat_sub_ofNat (y := 8) (by omega) (by omega)
  have hold : s.size (p - 8#64) = BitVec.ofNat 64 size := by
    rw [hblock]
    exact h.atUsed.2.1
  -- a wrapped size is at most 8, so that no block is smaller
  have hle : ¬ s.size (p - 8#64) < realSize sz := by
    rw [hold, BitVec.lt_def, BitVec.toNat_ofNat, Nat.mod_eq_of_lt (by omega)]
    omega
  by_cases hrest : sizeofEntry ≤ s.size (p - 8#64) - realSize sz
  · have hnew : BitVec.ofNat 64 (start.base + total pre) + realSize sz =
        BitVec.ofNat 64 (start.base + total pre + (realSize sz).toNat) := by
      rw [BitVec.ofNat_add _ (realSize sz).toNat, ofNat_toNat]
    have hchain := freeChain_cut h hr (realSize sz) (BitVec.ofNat 64 size - realSize sz)
    obtain ⟨t', hfree⟩ : ∃ t', free (p - 8#64 + realSize sz + 8#64)
        ((s.setSize (p - 8#64) (realSize sz)).setSize (p - 8#64 + realSize sz)
          (s.size (p - 8#64) - realSize sz)) = some t' := by
      rw [hold, hblock, hnew]
      unfold free
      dsimp only
      split
      · exact ⟨_, rfl⟩
      · refine freeLoop_ends _ (l := .freelist) hchain ?_
        exact (freeBlocks_length _ _).trans_lt hlen
    exact ⟨t', realloc_cut hp hle hrest hfree⟩
  · exact ⟨s, realloc_stay hp hle hrest⟩

end Wrapped

/-! ### Every call -/

section Calls

variable {s : TinyMalloc σ} {bs : List Block} {frame : Addr}

/-- A call of `malloc` that is refused, or whose size does not wrap. -/
theorem malloc_notShortened_iff (sBrk : SBrk σ) (h : Represents start s bs)
    (hframe : s.mallocEnd.toNat + 32 ≤ frame.toNat) (sz : BitVec 64) :
    NotShortened start sz.toNat (malloc start sBrk frame sz s) ↔
      sz.toNat + 16 ≤ 2 ^ 64 ∨ mallocRefuses s frame (realSize sz) bs = true := by
  by_cases hsz : sz.toNat + 16 ≤ 2 ^ 64
  · refine iff_of_true ?_ (.inl hsz)
    obtain ⟨⟨p, s'⟩, hrun, hresult⟩ := @malloc_spec _ _ sBrk _ _ _ _ h hsz
      (room_of_frame hframe (requestSize_lt hsz))
    rcases hresult with hnull | ⟨bs', halloc⟩
    · exact notShortened_null (hrun.trans (congrArg some hnull))
    · exact (notShortened_some hrun).2 fun _ => (halloc.toHanded.gives h).served
  · obtain ⟨⟨p, s'⟩, hrun, hresult⟩ := malloc_way sBrk frame sz h
    rw [notShortened_some hrun]
    cases href : mallocRefuses s frame (realSize sz) bs with
    | true =>
      rw [href] at hresult
      obtain ⟨rfl, -⟩ := Prod.mk.inj hresult
      exact iff_of_true (fun hne => absurd rfl hne) (.inr rfl)
    | false =>
      rw [href] at hresult
      refine iff_of_false (fun himp => hsz (himp hresult).request_lt) ?_
      rintro (hlt | hnull)
      · exact hsz hlt
      · exact Bool.false_ne_true hnull

theorem calloc_notShortened_iff (sBrk : SBrk σ) (h : Represents start s bs)
    (hframe : s.mallocEnd.toNat + 32 ≤ frame.toNat) (n elemSize : BitVec 64) :
    NotShortened start (n.toNat * elemSize.toNat) (calloc start sBrk frame n elemSize s) ↔
      n.toNat * elemSize.toNat + 16 ≤ 2 ^ 64 ∨
        mallocRefuses s frame (realSize (n * elemSize)) bs = true := by
  by_cases hsz : n.toNat * elemSize.toNat + 16 ≤ 2 ^ 64
  · have hmul : (n * elemSize).toNat = n.toNat * elemSize.toNat := by
      rw [BitVec.toNat_mul, Nat.mod_eq_of_lt (by omega)]
    refine iff_of_true ?_ (.inl hsz)
    rw [← hmul] at hsz ⊢
    obtain ⟨⟨p, s'⟩, hrun, hresult⟩ := @calloc_spec _ _ sBrk _ _ _ _ _ h hsz
      (room_of_frame hframe (requestSize_lt hsz))
    rcases hresult with hnull | ⟨bs', hgives, -⟩
    · exact notShortened_null (hrun.trans (congrArg some hnull))
    · exact (notShortened_some hrun).2 fun _ => hgives.served
  · obtain ⟨⟨p, s1⟩, hmalloc, hresult⟩ := malloc_way sBrk frame (n * elemSize) h
    cases href : mallocRefuses s frame (realSize (n * elemSize)) bs with
    | true =>
      rw [href] at hresult
      obtain ⟨rfl, -⟩ := Prod.mk.inj hresult
      exact iff_of_true (notShortened_null (calloc_null hmalloc)) (.inr rfl)
    | false =>
      rw [href] at hresult
      -- a pointer is returned, with a size that is not the one asked for
      obtain ⟨m, hset⟩ := memset_ends s1.mem p 0#32 (n * elemSize)
      rw [notShortened_some (calloc_filled hmalloc hresult hset)]
      refine iff_of_false (fun himp => hsz (himp hresult).request_lt) ?_
      rintro (hlt | hnull)
      · exact hsz hlt
      · exact Bool.false_ne_true hnull

theorem realloc_notShortened_iff (sBrk : SBrk σ) (h : Represents start s bs)
    (hframe : s.mallocEnd.toNat + 32 ≤ frame.toNat) {p : Addr} (sz : BitVec 64)
    (hp : Passable (chunks start.base bs) p) :
    NotShortened start sz.toNat (realloc start sBrk frame p sz s) ↔
      sz.toNat + 16 ≤ 2 ^ 64 ∨ (p = 0#64 ∧ mallocRefuses s frame (realSize sz) bs = true) := by
  rcases hp with rfl | ⟨q, hq, rfl⟩
  · have hmalloc : realloc start sBrk frame 0#64 sz s = malloc start sBrk frame sz s := by
      simp [realloc]
    rw [hmalloc, malloc_notShortened_iff sBrk h hframe sz]
    simp only [true_and]
  · have hq0 : q.ptr ≠ 0#64 := held_nonnull h (List.Perm.refl _) hq
    obtain ⟨pre, size, post, rfl, hptr⟩ := exists_block_of_mem_chunks hq
    by_cases hsz : sz.toNat + 16 ≤ 2 ^ 64
    · refine iff_of_true ?_ (.inl hsz)
      obtain ⟨⟨p, s'⟩, hrun, hresult⟩ := @realloc_spec _ _ sBrk _ _ _ _ _ _ _ h hsz
        (room_of_frame hframe (requestSize_lt hsz))
      rw [← hptr] at hrun
      rcases hresult with hnull | hmoved
      · exact notShortened_null (hrun.trans (congrArg some hnull))
      · obtain ⟨bs', hgives⟩ := hmoved.gives
        exact (notShortened_some hrun).2 fun _ => hgives.served
    · obtain ⟨s', hrun⟩ := realloc_wrapped sBrk frame h hsz
      rw [← hptr] at hrun
      rw [notShortened_some hrun]
      refine iff_of_false (fun himp => hsz (himp hq0).request_lt) ?_
      rintro (hlt | ⟨hnull, -⟩)
      · exact hsz hlt
      · exact hq0 hnull

/-- `memalign` serves a request of `n` bytes, of which it is given the low 64 bits: its
alignment is bad, or it is refused, or it returns a null pointer after all, or neither the
request nor the sum of the size and the gap where it takes its block wraps.  (Where only
the sum wraps, the piece may by chance lie inside the heap, behind its start.) -/
def AlignServes (start : MallocStart) (s : TinyMalloc σ) (bs : List Block) (frame : Addr)
    (align sz : BitVec 64) (n : ℕ) : Prop :=
  badAlign align = true ∨
    match alignWay s frame align (realSize sz) start.base bs with
    | .refused => True
    | .late => True
    | .takes a => alignPiece align a = 0#64 ∨ (n + 16 ≤ 2 ^ 64 ∧
        ((realSize sz).toNat + gapAt align a < 2 ^ 64 ∨ start.base + 2 ^ 64 ≤ a + gapAt align a))

theorem memalign_notShortened_iff (h : Represents start s bs)
    (hframe : s.mallocEnd.toNat + 32 ≤ frame.toNat) (align sz : BitVec 64) {n : ℕ}
    (hn : n < 2 ^ 64 → sz.toNat = n) :
    NotShortened start n (memalign frame align sz s) ↔ AlignServes start s bs frame align sz n := by
  cases hbad : badAlign align with
  | true =>
    refine iff_of_true (notShortened_null (s := s) ?_) (.inl hbad)
    unfold memalign
    rw [if_pos hbad]
  | false =>
    obtain ⟨k, hk, halign⟩ := badAlign_eq_false.1 hbad
    obtain ⟨⟨p, s'⟩, hrun, hresult⟩ : ∃ result, memalign frame align sz s = some result ∧
        AlignResult start s bs frame align (realSize sz) result
          (alignWay s frame align (realSize sz) start.base bs) := memalign_way frame hbad h
    unfold AlignServes
    rw [notShortened_some hrun, hbad]
    cases hway : alignWay s frame align (realSize sz) start.base bs with
    | refused =>
      rw [hway] at hresult
      obtain ⟨rfl, -⟩ := Prod.mk.inj hresult
      exact iff_of_true (fun hne => absurd rfl hne) (.inr trivial)
    | late =>
      rw [hway] at hresult
      exact iff_of_true (fun hne => absurd hresult.1 hne) (.inr trivial)
    | takes a =>
      -- a piece at `a`, which counts unless its address is null; it is as long as asked exactly if
      -- neither the size nor the sum with the gap wraps, or the piece wrapped around as well
      rw [hway] at hresult
      have hp : p = alignPiece align a := hresult.piece
      simp only [Bool.false_eq_true, false_or]
      by_cases hpiece : alignPiece align a = 0#64
      · exact iff_of_true (fun hne => absurd (hp.trans hpiece) hne) (.inl hpiece)
      · by_cases hsz : n + 16 ≤ 2 ^ 64
        · have hsz' : sz.toNat = n := hn (by omega)
          have hreal : realSize sz = BitVec.ofNat 64 (requestSize n) := by
            rw [← hsz']
            exact realSize_eq (by omega)
          have hreal' : (realSize sz).toNat = requestSize n := by
            rw [hreal, BitVec.toNat_ofNat, Nat.mod_eq_of_lt (requestSize_lt hsz)]
          obtain ⟨hR, hfit⟩ := requestSize_room n
          have htight : requestSize n ≤ n + 16 := by
            unfold requestSize
            omega
          rw [hreal']
          have hne : p ≠ 0#64 := fun hnull => hpiece (hp.symm.trans hnull)
          by_cases hwrap : requestSize n + gapAt align a < 2 ^ 64
          · refine iff_of_true (fun _ => ?_) (.inr ⟨hsz, .inl hwrap⟩)
            exact hresult.served hreal hR (requestSize_aligned n) hfit hk halign h hframe hwrap
          · have hiff := hresult.wrapped_iff (n := n) hk halign (by omega) (by omega) h hframe
              (by omega)
            constructor
            · intro himp
              exact .inr ⟨hsz, .inr (hiff.1 (himp hne))⟩
            · rintro (hnull | ⟨-, hlt | hin⟩) -
              · exact absurd hnull hpiece
              · exact absurd hlt hwrap
              · exact hiff.2 hin
        · refine iff_of_false (fun himp => hsz (himp ?_).request_lt) ?_
          · exact fun hnull => hpiece (hp.symm.trans hnull)
          · rintro (hnull | ⟨hlt, -⟩)
            · exact hpiece hnull
            · exact hsz hlt

/-- The call returns null, or no sum it rests on wraps. -/
def Serves (start : MallocStart) (s : TinyMalloc σ) (bs : List Block) (frame : Addr) :
    HeapCall → Prop
  | .malloc sz => sz.toNat + 16 ≤ 2 ^ 64 ∨ mallocRefuses s frame (realSize sz) bs = true
  | .calloc n elemSize => n.toNat * elemSize.toNat + 16 ≤ 2 ^ 64 ∨
      mallocRefuses s frame (realSize (n * elemSize)) bs = true
  | .realloc p sz => sz.toNat + 16 ≤ 2 ^ 64 ∨
      (p = 0#64 ∧ mallocRefuses s frame (realSize sz) bs = true)
  | .memalign align sz => AlignServes start s bs frame align sz sz.toNat
  | .valloc sz => AlignServes start s bs frame 128#64 sz sz.toNat
  | .pvalloc sz => AlignServes start s bs frame 128#64 (sz + mAlign sz 128#64)
      (sz.toNat + (mAlign sz 128#64).toNat)
  | .free _ => True
  | .cfree _ => True

end Calls

/-- **No request is shortened**: a call on a heap returns null or a piece of at least the
size asked for, inside the heap, exactly when it is refused or none of its sums wraps. -/
theorem notShortened_iff (start : MallocStart) (sBrk : SBrk σ) (s : TinyMalloc σ) (bs : List Block)
    (frame : Addr) (h : Represents start s bs) (hframe : s.mallocEnd.toNat + 32 ≤ frame.toNat)
    (c : HeapCall) (hp : ∀ p sz, c = .realloc p sz → Passable (chunks start.base bs) p) :
    NotShortened start c.request (c.run start sBrk frame s) ↔ Serves start s bs frame c := by
  cases c with
  | malloc sz => exact malloc_notShortened_iff sBrk h hframe sz
  | calloc n elemSize => exact calloc_notShortened_iff sBrk h hframe n elemSize
  | realloc p sz => exact realloc_notShortened_iff sBrk h hframe sz (hp p sz rfl)
  | memalign align sz => exact memalign_notShortened_iff h hframe align sz fun _ => rfl
  | valloc sz => exact memalign_notShortened_iff h hframe 128#64 sz fun _ => rfl
  | pvalloc sz =>
    refine memalign_notShortened_iff h hframe 128#64 (sz + mAlign sz 128#64) fun hlt => ?_
    rw [BitVec.toNat_add]
    exact Nat.mod_eq_of_lt hlt
  | free p =>
    refine iff_of_true (fun q t hrun hq => ?_) trivial
    obtain ⟨t', -, hret⟩ := Option.map_eq_some_iff.1 hrun
    exact absurd (Prod.mk.inj hret).1.symm hq
  | cfree p =>
    refine iff_of_true (fun q t hrun hq => ?_) trivial
    obtain ⟨t', -, hret⟩ := Option.map_eq_some_iff.1 hrun
    exact absurd (Prod.mk.inj hret).1.symm hq

theorem notShortened_small :
    NotShortened smallStart 24 ((HeapCall.malloc 24#64).run smallStart raiseBreak 0x8000#64 emptyHeap) ↔
      Serves smallStart emptyHeap [] 0x8000#64 (.malloc 24#64) :=
  notShortened_iff smallStart raiseBreak emptyHeap [] 0x8000#64 emptyHeap_represents (by decide)
    (.malloc 24#64) nofun

/-- **Sizes wrap unnoticed**: `malloc(SIZE_MAX)` returns a block of 8 bytes, and
`calloc(2^32, 2^32)` one of 16. -/
theorem wrapped_shortened :
    ¬ NotShortened smallStart 0xFFFFFFFFFFFFFFFF
        (malloc smallStart raiseBreak 0x8000#64 0xFFFFFFFFFFFFFFFF#64 emptyHeap) ∧
      ¬ NotShortened smallStart (0x100000000 * 0x100000000)
        (calloc smallStart raiseBreak 0x8000#64 0x100000000#64 0x100000000#64 emptyHeap) := by
  constructor
  · intro h
    have hiff := (malloc_notShortened_iff raiseBreak emptyHeap_represents (by decide) _).1 h
    exact absurd hiff (by decide)
  · intro h
    have hiff := (calloc_notShortened_iff raiseBreak emptyHeap_represents (by decide) _ _).1 h
    exact absurd hiff (by decide)

end TinyMalloc

end KeystoneSdk
