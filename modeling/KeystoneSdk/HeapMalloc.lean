/-
What `malloc` does to the heap.

* `requestSize` — `REAL_SIZE` as a number, when it does not wrap;
* `Room` — what the caller's frame promises about `CAN_ALLOC_P`;
* `Handed` — the heap after a block has been handed out: one block more for its
  owner, and every other block as it was;
* **`malloc_spec`** — `malloc` returns null and changes nothing, or hands out a
  block with room for the request.
-/
import KeystoneSdk.HeapRow

open ByteMemory BlockHeap

namespace KeystoneSdk

namespace TinyMalloc

variable {σ : Type} {start : MallocStart} {sBrk : SBrk σ}

/-! ### Sizes -/

theorem mAlign_toNat (x : BitVec 64) {k : ℕ} (hk : k < 64) :
    (mAlign x (BitVec.ofNat 64 (2 ^ k))).toNat = (2 ^ 64 - x.toNat) % 2 ^ k := by
  have hx := x.isLt
  have hpow : 2 ^ k < 2 ^ 64 := Nat.pow_lt_pow_right (by omega) hk
  have hpos : 0 < 2 ^ k := Nat.two_pow_pos k
  have hmask : BitVec.ofNat 64 (2 ^ k) - 1#64 = BitVec.ofNat 64 (2 ^ k - 1) :=
    ofNat_sub_ofNat hpos hpow
  unfold mAlign
  rw [hmask, BitVec.toNat_and, BitVec.toNat_neg, BitVec.toNat_ofNat,
    Nat.mod_eq_of_lt (show 2 ^ k - 1 < 2 ^ 64 by omega), Nat.and_two_pow_sub_one_eq_mod,
    Nat.mod_mod_of_dvd _ (Nat.pow_dvd_pow 2 hk.le)]

/-- `REAL_SIZE` of a request of `n` bytes: the request and its header, rounded up
to whole words, and at least two of them. -/
def requestSize (n : ℕ) : ℕ := (max n 8 + 15) / 8 * 8

theorem realSize_eq {sz : BitVec 64} (h : sz.toNat + 16 ≤ 2 ^ 64) :
    realSize sz = BitVec.ofNat 64 (requestSize sz.toNat) := by
  have hlt : sz < sizeofEntry - 8#64 ↔ sz.toNat < 8 := BitVec.lt_def
  apply BitVec.eq_of_toNat_eq
  unfold realSize requestSize
  by_cases hsmall : sz.toNat < 8
  · rw [if_pos (hlt.2 hsmall), Nat.max_eq_right hsmall.le]
    rfl
  · have halign : (mAlign sz 8#64).toNat = (2 ^ 64 - sz.toNat) % 2 ^ 3 :=
      mAlign_toNat sz (k := 3) (by omega)
    rw [if_neg fun h => hsmall (hlt.1 h), BitVec.toNat_add, BitVec.toNat_add, halign,
      Nat.max_eq_left (by omega), BitVec.toNat_ofNat, BitVec.toNat_ofNat]
    omega

theorem requestSize_room (n : ℕ) : 16 ≤ requestSize n ∧ n + 8 ≤ requestSize n := by
  unfold requestSize
  omega

theorem requestSize_aligned (n : ℕ) : requestSize n % 8 = 0 := by
  unfold requestSize
  omega

theorem requestSize_lt {n : ℕ} (h : n + 16 ≤ 2 ^ 64) : requestSize n < 2 ^ 64 := by
  unfold requestSize
  omega

/-! ### Blocks handed out -/

/-- Growing the heap by at most `bound` bytes, where `CAN_ALLOC_P` allows it,
does not reach the end of the address space. -/
def Room (s : TinyMalloc σ) (frame : Addr) (bound : ℕ) : Prop :=
  ∀ required, required ≤ bound → s.canAlloc frame (BitVec.ofNat 64 required) = true →
    s.mallocEnd.toNat + required + 16 ≤ 2 ^ 64

/-- A frame that is the minimum gap above the heap promises room. -/
theorem room_of_frame {s : TinyMalloc σ} {frame : Addr} {bound : ℕ}
    (hframe : s.mallocEnd.toNat + 32 ≤ frame.toNat) (hbound : bound < 2 ^ 64) :
    s.Room frame bound := by
  intro required hle hcan
  have hf := frame.isLt
  have hgap : (frame - s.mallocEnd - minimumGap).toNat = frame.toNat - s.mallocEnd.toNat - 32 := by
    have h32 : minimumGap.toNat = 32 := rfl
    rw [BitVec.toNat_sub, BitVec.toNat_sub, h32]
    omega
  have hreq := BitVec.le_def.1 (of_decide_eq_true hcan)
  rw [hgap, BitVec.toNat_ofNat, Nat.mod_eq_of_lt (by omega)] at hreq
  omega

/-- From `s` to `s'` a block has been handed out at `p` for a request of `n`
bytes. -/
structure Handed (start : MallocStart) (s s' : TinyMalloc σ) (bs bs' : List Block) (p : Addr)
    (n : ℕ) : Prop where
  represents : Represents start s' bs'
  chunks : (chunks start.base bs').Perm (⟨p, n⟩ :: chunks start.base bs)
  kept : Kept s.mem s'.mem start.base bs

/-- A block handed out lies inside the heap. -/
theorem Represents.chunk_bounds {s : TinyMalloc σ} {bs : List Block} {c : Chunk}
    (h : Represents start s bs) (hc : c ∈ chunks start.base bs) :
    start.base + 8 ≤ c.ptr.toNat ∧ c.ptr.toNat + c.request ≤ s.mallocEnd.toNat := by
  obtain ⟨pre, size, post, rfl, hptr⟩ := exists_block_of_mem_chunks hc
  have hfits := (h.row.ok ⟨size, some c.request⟩ (by simp)).fits c.request rfl
  have hbelow := h.below
  rw [h.top_toNat]
  simp only [total_append, total_cons] at hbelow hfits ⊢
  rw [hptr, BitVec.toNat_ofNat, Nat.mod_eq_of_lt (by omega)]
  omega

theorem Handed.ne_zero {s s' : TinyMalloc σ} {bs bs' : List Block} {p : Addr} {n : ℕ}
    (h : Handed start s s' bs bs' p n) : p ≠ 0#64 := by
  rintro rfl
  have hmem := h.chunks.mem_iff.2 (List.mem_cons_self (a := (⟨0#64, n⟩ : Chunk)))
  have hbounds := (h.represents.chunk_bounds hmem).1
  exact absurd hbounds (Nat.not_le_of_gt (by show 0 < _; omega))

/-- The heap after a call of `malloc` that did not return null. -/
structure Allocated (start : MallocStart) (sBrk : SBrk σ) (s s' : TinyMalloc σ)
    (bs bs' : List Block) (p : Addr) (r n : ℕ) : Prop extends Handed start s s' bs bs' p n where
  log : ∀ e ∈ s'.headers, e ∈ s.headers ∨
    (e.2 = s.sys ∧ e.1.toNat + 8 ≤ s.mallocEnd.toNat + 8)
  sys : s'.sys = checkedSys sBrk s.sys p (BitVec.ofNat 64 r)
  top : s'.mallocEnd.toNat ≤ max s.mallocEnd.toNat (p.toNat + r - 8)

/-- The pieces handed out when a free block of a row, or nothing at its end, gives
way to a block handed out and perhaps a free one. -/
theorem chunks_replace {a : ℕ} {pre : List Block} (old new post : List Block) {p : Addr} {n : ℕ}
    (hold : chunks (a + total pre) old = []) (hnew : chunks (a + total pre) new = [⟨p, n⟩])
    (htotal : post = [] ∨ total new = total old) :
    (chunks a (pre ++ new ++ post)).Perm (⟨p, n⟩ :: chunks a (pre ++ old ++ post)) := by
  have hpost : chunks (a + total (pre ++ new)) post = chunks (a + total (pre ++ old)) post := by
    rcases htotal with rfl | htotal
    · rfl
    · rw [total_append, total_append, htotal]
  rw [chunks_append, chunks_append, chunks_append a (pre ++ old), chunks_append a pre old, hold,
    hnew, hpost, List.append_nil, List.append_assoc]
  exact List.perm_middle

/-- The call of `check_range_and_call_sbrk` that ends an allocation changes only
what `s_brk` works on. -/
theorem Handed.checked {s s' : TinyMalloc σ} {bs bs' : List Block} {p : Addr} {n : ℕ}
    (h : Handed start s s' bs bs' p n) (hw : Writes s s' (s.mallocEnd.toNat + 8)) {r : ℕ}
    (htop : s'.mallocEnd.toNat ≤ max s.mallocEnd.toNat (p.toNat + r - 8)) :
    Allocated start sBrk s (s'.checkRangeAndCallSbrk sBrk p (BitVec.ofNat 64 r)) bs bs' p r n := by
  refine ⟨⟨⟨?_, h.represents.row, h.represents.below, ?_⟩, h.chunks, h.kept⟩, hw.log, ?_, htop⟩
  · exact h.represents.laid
  · exact h.represents.top
  · show checkedSys sBrk s'.sys p _ = _
    rw [hw.sys]

/-! ### The four ways of `malloc` -/

section Ways

variable {s : TinyMalloc σ} {pre post : List Block} {size r n : ℕ}

/-- The payload address of a block is behind its header. -/
theorem payload_toNat {a : ℕ} (h : a + 8 < 2 ^ 64) :
    (BitVec.ofNat 64 (a + 8)).toNat = a + 8 := by
  rw [BitVec.toNat_ofNat, Nat.mod_eq_of_lt h]

theorem handed_take (h : Represents start s (pre ++ ⟨size, none⟩ :: post)) (hn : n + 8 ≤ size) :
    Handed start s
        (s.assign (link start pre) (s.next (BitVec.ofNat 64 (start.base + total pre))))
        (pre ++ ⟨size, none⟩ :: post) (pre ++ ⟨size, some n⟩ :: post)
        (BitVec.ofNat 64 (start.base + total pre + 8)) n ∧
      Writes s (s.assign (link start pre) (s.next (BitVec.ofNat 64 (start.base + total pre))))
        s.mallocEnd.toNat ∧
      (s.assign (link start pre) (s.next (BitVec.ofNat 64 (start.base + total pre)))).mallocEnd =
        s.mallocEnd := by
  obtain ⟨hpre, hok, hpost, -, -⟩ := row_free.1 h.row
  obtain ⟨hlaid, hkept, hw, hend⟩ := takeBlock_spec (n := n) h.laid h.row.ok h.lt
  -- the row keeps its length: only the use of one block changes
  have htotal : total (pre ++ ⟨size, some n⟩ :: post) = total (pre ++ ⟨size, none⟩ :: post) := by
    simp
  refine ⟨⟨⟨hlaid, row_used.2 ⟨hpre, ⟨hok.room, hok.aligned, ?_⟩, hpost⟩, ?_, ?_⟩, ?_, hkept⟩,
    ?_, hend⟩
  · intro k hk
    obtain rfl := Option.some.inj hk
    exact hn
  · rw [htotal]
    exact h.below
  · rw [hend, h.top, htotal]
  · have := @chunks_replace start.base pre [⟨size, none⟩] [⟨size, some n⟩] post _ n rfl rfl
      (.inr (by simp))
    simpa using this
  · rw [h.top_toNat]
    exact hw

theorem handed_split (h : Represents start s (pre ++ ⟨size, none⟩ :: post)) (hr : 16 ≤ r)
    (hr8 : r % 8 = 0) (hn : n + 8 ≤ r) (hsize : r + 16 ≤ size) :
    let block := BitVec.ofNat 64 (start.base + total pre)
    let s' := (s.splitBlock (link start pre) block (BitVec.ofNat 64 size)
      (BitVec.ofNat 64 r)).setSize block (BitVec.ofNat 64 r)
    Handed start s s' (pre ++ ⟨size, none⟩ :: post)
        (pre ++ ⟨r, some n⟩ :: ⟨size - r, none⟩ :: post)
        (BitVec.ofNat 64 (start.base + total pre + 8)) n ∧
      Writes s s' s.mallocEnd.toNat ∧ s'.mallocEnd = s.mallocEnd := by
  intro block s'
  obtain ⟨hpre, hok, hpost, -, hhead⟩ := row_free.1 h.row
  have hsize8 : size % 8 = 0 := hok.aligned
  obtain ⟨hlaid, hkept, hw, hend⟩ := splitBlock_spec (n := n) h.laid h.row.ok h.lt hr hsize
  have htotal : total (pre ++ ⟨r, some n⟩ :: ⟨size - r, none⟩ :: post) =
      total (pre ++ ⟨size, none⟩ :: post) := by
    simp only [total_append, total_cons]
    omega
  have hused : (⟨r, some n⟩ : Block).Ok := by
    refine ⟨hr, hr8, fun k hk => ?_⟩
    obtain rfl := Option.some.inj hk
    exact hn
  have hfree : (⟨size - r, none⟩ : Block).Ok :=
    ⟨by show 16 ≤ size - r; omega, by show (size - r) % 8 = 0; omega, fun k hk => nomatch hk⟩
  refine ⟨⟨⟨hlaid, row_used.2 ⟨hpre, hused, ?_⟩, ?_, ?_⟩, ?_, hkept⟩, ?_, hend⟩
  · -- the rest is free, and the block behind it is not: it was behind the whole
    exact row_free_cons.2 ⟨hfree, hpost, hhead⟩
  · rw [htotal]
    exact h.below
  · rw [hend, h.top, htotal]
  · have := @chunks_replace start.base pre [⟨size, none⟩]
      [⟨r, some n⟩, ⟨size - r, none⟩] post _ n rfl rfl
      (.inr (by simp only [total_cons, total_nil]; omega))
    simpa using this
  · rw [h.top_toNat]
    exact hw

/-- New space at the end of the heap. -/
theorem handed_grow (h : Represents start s pre) (hr : 16 ≤ r) (hr8 : r % 8 = 0)
    (hn : n + 8 ≤ r) (hroom : start.base + total pre + r + 16 ≤ 2 ^ 64) :
    let s' := ({ s with mallocEnd := s.mallocEnd + BitVec.ofNat 64 r } : TinyMalloc σ).setSize
      s.mallocEnd (BitVec.ofNat 64 r)
    Handed start s s' pre (pre ++ [⟨r, some n⟩])
        (BitVec.ofNat 64 (start.base + total pre + 8)) n ∧
      Writes s s' (s.mallocEnd.toNat + 8) ∧ s'.mallocEnd.toNat = start.base + total pre + r := by
  intro s'
  -- the new header is the first word behind the row, and leaves the row as it is
  have hfront := (Front.refl h.laid).store h.row.ok (BitVec.ofNat 64 r) (le_refl _) (by omega)
  have htotal : total (pre ++ [⟨r, some n⟩]) = total pre + r := by
    simp
  have hend : s'.mallocEnd = BitVec.ofNat 64 (start.base + total pre + r) := by
    show s.mallocEnd + _ = _
    rw [h.top, ← BitVec.ofNat_add]
  have hs' : s' = ({ s with mallocEnd := s.mallocEnd + BitVec.ofNat 64 r } :
      TinyMalloc σ).storeHeader (BitVec.ofNat 64 (start.base + total pre)) (BitVec.ofNat 64 r) := by
    show TinyMalloc.storeHeader _ s.mallocEnd _ = _
    rw [h.top]
  have hused : (⟨r, some n⟩ : Block).Ok := by
    refine ⟨hr, hr8, fun k hk => ?_⟩
    obtain rfl := Option.some.inj hk
    exact hn
  refine ⟨⟨⟨?_, row_used.2 ⟨h.row, hused, ⟨nofun, List.isChain_nil⟩⟩, ?_, ?_⟩, ?_, ?_⟩, ?_, ?_⟩
  · refine laid_append.2 ⟨_, ?_, ?_, rfl⟩
    · rw [hs']
      exact hfront.laid
    · rw [hs']
      exact readLE64_writeLE64_same _ _ _
  · rw [htotal]
    omega
  · rw [hend, htotal, Nat.add_assoc]
  · have := @chunks_replace start.base pre [] [⟨r, some n⟩] [] _ n rfl rfl (.inl rfl)
    simpa using this
  · rw [hs']
    exact hfront.kept
  · rw [h.top_toNat, hs']
    exact ((Writes.refl s _).setEnd _).store _ (by omega) (le_refl _)
  · rw [hend, BitVec.toNat_ofNat, Nat.mod_eq_of_lt (by omega)]

/-- The last free block, at the end of the heap, is made larger. -/
theorem handed_extend (h : Represents start s (pre ++ [⟨size, none⟩])) (hr : 16 ≤ r)
    (hr8 : r % 8 = 0) (hn : n + 8 ≤ r) (hroom : start.base + total pre + r + 16 ≤ 2 ^ 64) :
    let block := BitVec.ofNat 64 (start.base + total pre)
    let s1 := s.assign (link start pre) 0#64
    let s' := ({ s1 with mallocEnd := block + BitVec.ofNat 64 r } : TinyMalloc σ).setSize
      block (BitVec.ofNat 64 r)
    Handed start s s' (pre ++ [⟨size, none⟩]) (pre ++ [⟨r, some n⟩])
        (BitVec.ofNat 64 (start.base + total pre + 8)) n ∧
      Writes s s' s.mallocEnd.toNat ∧ s'.mallocEnd.toNat = start.base + total pre + r := by
  intro block s1 s'
  obtain ⟨hpre, hok, -, -, -⟩ := row_free.1 h.row
  have hsize : 16 ≤ size := hok.room
  have hbelow := h.below
  simp only [total_append, total_cons, total_nil] at hbelow
  -- the last block leaves the list, and is laid out once more with its new size
  obtain ⟨w, hlaid, rfl, -, -⟩ := laid_append.1 h.laid
  obtain ⟨hfront, hw, -⟩ := assign_link hlaid hpre.ok (by omega) 0#64
  have hfront' := hfront.store hpre.ok (BitVec.ofNat 64 r) (le_refl _) (by omega)
  have htotal : total (pre ++ [⟨r, some n⟩]) = total pre + r := by
    simp
  have hend : s'.mallocEnd = BitVec.ofNat 64 (start.base + total pre + r) := by
    show block + _ = _
    rw [← BitVec.ofNat_add]
  have hused : (⟨r, some n⟩ : Block).Ok := by
    refine ⟨hr, hr8, fun k hk => ?_⟩
    obtain rfl := Option.some.inj hk
    exact hn
  refine ⟨⟨⟨?_, row_used.2 ⟨hpre, hused, ⟨nofun, List.isChain_nil⟩⟩, ?_, ?_⟩, ?_, ?_⟩, ?_, ?_⟩
  · refine laid_append.2 ⟨_, hfront'.laid, ?_, rfl⟩
    exact readLE64_writeLE64_same _ _ _
  · rw [htotal]
    omega
  · rw [hend, htotal, Nat.add_assoc]
  · have := @chunks_replace start.base pre [⟨size, none⟩] [⟨r, some n⟩] [] _ n rfl rfl (.inl rfl)
    simpa using this
  · exact kept_append.2 ⟨hfront'.kept, fun h => absurd rfl h, trivial⟩
  · rw [h.top_toNat]
    simp only [total_append, total_cons, total_nil]
    exact ((hw.mono (by omega)).setEnd _).store _ (by omega) (by omega)
  · rw [hend, BitVec.toNat_ofNat, Nat.mod_eq_of_lt (by omega)]

end Ways

/-! ### The loop -/

/-- What a call of `malloc` gives: null and the same heap, or an allocation. -/
def MallocResult (start : MallocStart) (sBrk : SBrk σ) (s : TinyMalloc σ) (bs : List Block)
    (r n : ℕ) (result : Addr × TinyMalloc σ) : Prop :=
  result = (0#64, s) ∨ ∃ bs', Allocated start sBrk s result.2 bs bs' result.1 r n

/-- The loop after the blocks `pre`: the induction is on the blocks it has not
passed, and skips those handed out, which it never sees. -/
theorem mallocLoop_spec {s : TinyMalloc σ} (pre : List Block) {post : List Block} {r n fuel : ℕ}
    {frame : Addr}
    (h : Represents start s (pre ++ post)) (hr : 16 ≤ r) (hr8 : r % 8 = 0) (hn : n + 8 ≤ r)
    (hr64 : r < 2 ^ 64) (hroom : s.Room frame r) (hfuel : post.length < fuel) :
    ∃ result, mallocLoop sBrk frame (BitVec.ofNat 64 r) fuel (link start pre) s = some result ∧
      MallocResult start sBrk s (pre ++ post) r n result := by
  induction post generalizing pre fuel with
  | nil =>
    -- the end of the list: new space, if `CAN_ALLOC_P` allows it
    obtain ⟨fuel, rfl⟩ : ∃ f, fuel = f + 1 := ⟨fuel - 1, by simp at hfuel; omega⟩
    rw [List.append_nil] at h ⊢
    have hderef := deref_link h.laid h.row.ok h.lt.le
    unfold mallocLoop
    rw [if_pos hderef]
    cases hcan : s.canAlloc frame (BitVec.ofNat 64 r)
    · exact ⟨_, rfl, .inl rfl⟩
    · have hgrow := hroom r (le_refl r) hcan
      rw [h.top_toNat] at hgrow
      obtain ⟨hhanded, hw, hend⟩ := handed_grow h hr hr8 hn hgrow
      have hp := payload_toNat (show start.base + total pre + 8 < 2 ^ 64 by omega)
      have hblock : s.mallocEnd + 8#64 = BitVec.ofNat 64 (start.base + total pre + 8) := by
        rw [h.top]
        exact (BitVec.ofNat_add _ _).symm
      refine ⟨_, rfl, .inr ⟨pre ++ [⟨r, some n⟩], ?_⟩⟩
      show Allocated start sBrk s (TinyMalloc.checkRangeAndCallSbrk sBrk _ (s.mallocEnd + 8#64) _) _
        _ (s.mallocEnd + 8#64) _ _
      rw [hblock]
      exact hhanded.checked hw (by omega)
  | cons b post ih =>
    obtain ⟨size, use⟩ := b
    rcases use with _ | m
    · -- a free block: the loop looks at it
      obtain ⟨fuel, rfl⟩ : ∃ f, fuel = f + 1 := ⟨fuel - 1, by simp at hfuel; omega⟩
      have hat := h.atFree
      have hpos := start.base_pos
      have hsize : 16 ≤ size := (h.row.ok ⟨size, none⟩ (by simp)).room
      have hbelow := h.below
      have htop := h.top_toNat
      simp only [total_append, total_cons] at hbelow htop
      have hp := payload_toNat (show start.base + total pre + 8 < 2 ^ 64 by omega)
      have hpayload : BitVec.ofNat 64 (start.base + total pre) + 8#64 =
          BitVec.ofNat 64 (start.base + total pre + 8) := (BitVec.ofNat_add _ _).symm
      have hfit : BitVec.ofNat 64 r ≤ BitVec.ofNat 64 size ↔ r ≤ size := by
        rw [BitVec.le_def, BitVec.toNat_ofNat, BitVec.toNat_ofNat, Nat.mod_eq_of_lt hr64,
          Nat.mod_eq_of_lt (by omega)]
      unfold mallocLoop
      simp only [hat.pointer, hat.header]
      rw [if_neg hat.nonnull]
      by_cases hrsize : r ≤ size
      · -- it has room: the whole of it, or the front where a header fits behind
        rw [if_pos (hfit.2 hrsize)]
        have hexact : BitVec.ofNat 64 size < BitVec.ofNat 64 r + sizeofEntry ↔ size < r + 16 := by
          rw [show BitVec.ofNat 64 r + sizeofEntry = BitVec.ofNat 64 (r + 16) from
            (BitVec.ofNat_add _ _).symm, ofNat_lt_ofNat (by omega) (by omega)]
        by_cases hwhole : size < r + 16
        · rw [if_pos (hexact.2 hwhole), hpayload]
          obtain ⟨hhanded, hw, hend⟩ := handed_take h (n := n) (by omega)
          exact ⟨_, rfl, .inr ⟨_, hhanded.checked (hw.mono (by omega)) (by rw [hend]; omega)⟩⟩
        · rw [if_neg fun hlt => hwhole (hexact.1 hlt)]
          obtain ⟨hhanded, hw, hend⟩ := handed_split h hr hr8 hn (by omega)
          refine ⟨_, rfl, .inr ⟨pre ++ ⟨r, some n⟩ :: ⟨size - r, none⟩ :: post, ?_⟩⟩
          unfold mallocDone
          dsimp only
          rw [hpayload]
          exact hhanded.checked (hw.mono (by omega)) (by rw [hend]; omega)
      · rw [if_neg fun hle => hrsize (hfit.1 hle)]
        have hlast := h.last_iff
        rw [hat.header] at hlast
        by_cases hpost : post = []
        · -- the last block of the heap grows
          subst hpost
          rw [if_pos (hlast.2 rfl), ofNat_sub_ofNat (by omega) hr64]
          cases hcan : s.canAlloc frame (BitVec.ofNat 64 (r - size))
          · exact ⟨_, rfl, .inl rfl⟩
          · have hgrow := hroom (r - size) (by omega) hcan
            rw [total_nil] at htop hbelow
            obtain ⟨hhanded, hw, hend⟩ := handed_extend h hr hr8 hn (by omega)
            refine ⟨_, rfl, .inr ⟨pre ++ [⟨r, some n⟩], ?_⟩⟩
            unfold mallocDone
            dsimp only
            rw [hpayload]
            exact hhanded.checked (hw.mono (by omega)) (by rw [hend]; omega)
        · -- too small, and not the last: its own link is the next one
          rw [if_neg fun hcond => hpost (hlast.1 hcond), ← link_free pre size]
          have hassoc : pre ++ ⟨size, none⟩ :: post = (pre ++ [⟨size, none⟩]) ++ post := by simp
          rw [hassoc] at h ⊢
          exact ih _ h (by simp at hfuel; omega)
    · -- a block handed out: the link stays the same
      have hassoc : pre ++ ⟨size, some m⟩ :: post = (pre ++ [⟨size, some m⟩]) ++ post := by simp
      rw [hassoc] at h ⊢
      rw [← link_live pre size m]
      exact ih _ h (by simp at hfuel; omega)

/-- An empty heap is the empty row. -/
theorem represents_nil {s : TinyMalloc σ} (hfree : s.freelist = 0#64)
    (hend : s.mallocEnd = start.addr) (hroom : start.base + 16 ≤ 2 ^ 64) :
    Represents start s [] := by
  refine ⟨hfree.symm, ⟨nofun, List.isChain_nil⟩, hroom, ?_⟩
  rw [hend, total_nil, Nat.add_zero]
  exact ((BitVec.ofNat_toNat 64 start.addr).trans (BitVec.setWidth_eq _)).symm

theorem Represents.initEnd {s : TinyMalloc σ} {bs : List Block} (h : Represents start s bs) :
    s.initEnd start = s := by
  have hpos := start.base_pos
  have htop := h.top_toNat
  unfold TinyMalloc.initEnd
  rw [if_neg]
  intro hzero
  rw [hzero] at htop
  exact absurd htop (by show 0 ≠ _; omega)

/-- A heap has fewer blocks than there are pointers. -/
theorem Represents.length_lt {s : TinyMalloc σ} {bs : List Block} (h : Represents start s bs) :
    bs.length < pointerRounds := by
  -- each block takes at least a byte of the address space
  have hlen : ∀ cs : List Block, (∀ b ∈ cs, b.Ok) → cs.length ≤ total cs := by
    intro cs
    induction cs with
    | nil => exact fun _ => le_refl _
    | cons c cs ih =>
      intro hok
      have hc := (hok c List.mem_cons_self).room
      have hcs := ih fun b hb => hok b (List.mem_cons_of_mem _ hb)
      rw [total_cons, List.length_cons]
      omega
  have hbs := hlen bs h.row.ok
  have hlt := h.lt
  unfold pointerRounds
  omega

/-- **`malloc`** on a heap returns null and changes nothing, or hands out a block
with room for the request. -/
theorem malloc_spec {s : TinyMalloc σ} {bs : List Block} {sz : BitVec 64} {frame : Addr}
    (h : Represents start s bs) (hsz : sz.toNat + 16 ≤ 2 ^ 64)
    (hroom : s.Room frame (requestSize sz.toNat)) :
    ∃ result, malloc start sBrk frame sz s = some result ∧
      MallocResult start sBrk s bs (requestSize sz.toNat) sz.toNat result := by
  have hsize := requestSize_room sz.toNat
  unfold malloc
  rw [h.initEnd, realSize_eq hsz]
  exact mallocLoop_spec [] h hsize.1 (requestSize_aligned _) hsize.2 (requestSize_lt hsz)
    hroom h.length_lt

end TinyMalloc

end KeystoneSdk
