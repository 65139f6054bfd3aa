/-
The heap of `tiny-malloc.c` as a row of blocks.

* `TinyMalloc.Represents` — the blocks between `__malloc_start` and
  `__malloc_end`, free or handed out, are a row in memory, and
  `__malloc_freelist` leads into it;
* `link` — the `fle *` that a loop over the free list holds after a prefix of
  the row;
* `Front` — a prefix of the row in a later state, with the pointer out of it;
* `Writes` — which words of block headers an operation has stored to;
* `splitBlock_spec`, `takeBlock_spec` — the two ways of handing out a free block.
-/
import KeystoneSdk.BlockHeap
import KeystoneSdk.TinyMalloc

open ByteMemory BlockHeap

namespace KeystoneSdk

def MallocStart.base (start : MallocStart) : ℕ := start.addr.toNat

theorem MallocStart.base_pos (start : MallocStart) : 0 < start.base := by
  refine Nat.pos_of_ne_zero fun h => start.nonnull ?_
  exact BitVec.eq_of_toNat_eq h

namespace TinyMalloc

variable {σ : Type} {start : MallocStart}

/-- The state's heap is the row `bs`. -/
structure Represents (start : MallocStart) (s : TinyMalloc σ) (bs : List Block) : Prop where
  laid : Laid s.mem s.freelist start.base bs 0#64
  row : Row bs
  below : start.base + total bs + 16 ≤ 2 ^ 64
  top : s.mallocEnd = BitVec.ofNat 64 (start.base + total bs)

theorem Represents.lt {s : TinyMalloc σ} {bs : List Block} (h : Represents start s bs) :
    start.base + total bs < 2 ^ 64 := by
  have hbelow := h.below
  omega

theorem Represents.top_toNat {s : TinyMalloc σ} {bs : List Block} (h : Represents start s bs) :
    s.mallocEnd.toNat = start.base + total bs := by
  rw [h.top, BitVec.toNat_ofNat, Nat.mod_eq_of_lt h.lt]

/-- The `fle *` a loop over the free list holds after the blocks `pre`. -/
def link (start : MallocStart) (pre : List Block) : Fle :=
  match lastFree start.base pre with
  | none => .freelist
  | some p => .next (BitVec.ofNat 64 p)

theorem link_live (pre : List Block) (size n : ℕ) :
    link start (pre ++ [⟨size, some n⟩]) = link start pre := by
  unfold link
  rw [lastFree_live]

theorem link_free (pre : List Block) (size : ℕ) :
    link start (pre ++ [⟨size, none⟩]) = .next (BitVec.ofNat 64 (start.base + total pre)) := by
  unfold link
  rw [lastFree_free]

theorem next_ofNat (s : TinyMalloc σ) (p : ℕ) :
    s.next (BitVec.ofNat 64 p) = readLE64 s.mem (BitVec.ofNat 64 (p + 8)) := by
  unfold next
  rw [BitVec.ofNat_add]

theorem setNext_ofNat (s : TinyMalloc σ) (p : ℕ) (v : Addr) :
    s.setNext (BitVec.ofNat 64 p) v = s.storeHeader (BitVec.ofNat 64 (p + 8)) v := by
  unfold setNext
  rw [BitVec.ofNat_add]

/-- The link after a prefix holds the pointer out of it. -/
theorem deref_link {s : TinyMalloc σ} {pre : List Block} {w : Addr}
    (h : Laid s.mem s.freelist start.base pre w) (hok : ∀ b ∈ pre, b.Ok)
    (hend : start.base + total pre ≤ 2 ^ 64) : s.deref (link start pre) = w := by
  unfold link
  cases hlast : lastFree start.base pre with
  | none => exact (h.through hlast).1.symm
  | some p =>
    show s.next (BitVec.ofNat 64 p) = w
    rw [next_ofNat]
    exact (h.relink hlast hok hend).1.symm

/-- What a loop over the free list sees at a free block of the row. -/
structure AtFree (start : MallocStart) (s : TinyMalloc σ) (pre post : List Block) (size : ℕ) :
    Prop where
  pointer : s.deref (link start pre) = BitVec.ofNat 64 (start.base + total pre)
  nonnull : BitVec.ofNat 64 (start.base + total pre) ≠ 0#64
  header : s.size (BitVec.ofNat 64 (start.base + total pre)) = BitVec.ofNat 64 size
  behind : Laid s.mem (s.next (BitVec.ofNat 64 (start.base + total pre)))
    (start.base + total pre + size) post 0#64

theorem Represents.atFree {s : TinyMalloc σ} {pre post : List Block} {size : ℕ}
    (h : Represents start s (pre ++ ⟨size, none⟩ :: post)) : AtFree start s pre post size := by
  have hok : ∀ b ∈ pre, b.Ok := fun b hb => h.row.ok b (List.mem_append_left _ hb)
  have hbelow := h.below
  have hpos := start.base_pos
  simp only [total_append, total_cons] at hbelow
  obtain ⟨w, hfront, rfl, hs, hrest⟩ := laid_append.1 h.laid
  refine ⟨deref_link hfront hok (by omega), ?_, hs, ?_⟩
  · intro hzero
    have := (ofNat_inj (by omega) (by omega)).1 hzero
    omega
  · rw [next_ofNat]
    exact hrest

/-- The last block of the free list is the last of the heap exactly when its
`next` is null and it reaches `__malloc_end`. -/
theorem Represents.last_iff {s : TinyMalloc σ} {pre post : List Block} {size : ℕ}
    (h : Represents start s (pre ++ ⟨size, none⟩ :: post)) :
    (s.next (BitVec.ofNat 64 (start.base + total pre)) = 0#64 ∧
      s.mallocEnd = BitVec.ofNat 64 (start.base + total pre) +
        s.size (BitVec.ofNat 64 (start.base + total pre))) ↔ post = [] := by
  have hat := h.atFree
  have hbelow := h.below
  have hok : ∀ b ∈ post, b.Ok :=
    fun b hb => h.row.ok b (List.mem_append_right _ (List.mem_cons_of_mem _ hb))
  rw [hat.header, h.top, ← BitVec.ofNat_add]
  simp only [total_append, total_cons] at hbelow ⊢
  rw [ofNat_inj (by omega) (by omega)]
  constructor
  · rintro ⟨-, hend⟩
    by_contra hne
    have := total_pos hok hne
    omega
  · rintro rfl
    refine ⟨Eq.symm hat.behind, ?_⟩
    rw [total_nil]
    omega

/-! ### Stores -/

@[simp] theorem storeHeader_mallocEnd (s : TinyMalloc σ) (a : Addr) (v : BitVec 64) :
    (s.storeHeader a v).mallocEnd = s.mallocEnd := rfl

@[simp] theorem setSize_mallocEnd (s : TinyMalloc σ) (block : Addr) (v : BitVec 64) :
    (s.setSize block v).mallocEnd = s.mallocEnd := rfl

@[simp] theorem setNext_mallocEnd (s : TinyMalloc σ) (block v : Addr) :
    (s.setNext block v).mallocEnd = s.mallocEnd := rfl

@[simp] theorem storeHeader_freelist (s : TinyMalloc σ) (a : Addr) (v : BitVec 64) :
    (s.storeHeader a v).freelist = s.freelist := rfl

@[simp] theorem assign_mallocEnd (s : TinyMalloc σ) (l : Fle) (v : Addr) :
    (s.assign l v).mallocEnd = s.mallocEnd := by
  cases l <;> rfl

/-- Every word of a header that was stored between the two states ends at or
below `bound`, and was stored before anything `s_brk` works on changed. -/
structure Writes (s s' : TinyMalloc σ) (bound : ℕ) : Prop where
  sys : s'.sys = s.sys
  log : ∀ e ∈ s'.headers, e ∈ s.headers ∨ (e.2 = s.sys ∧ e.1.toNat + 8 ≤ bound)

theorem Writes.refl (s : TinyMalloc σ) (bound : ℕ) : Writes s s bound :=
  ⟨rfl, fun _ he => .inl he⟩

theorem Writes.mono {s s' : TinyMalloc σ} {bound bound' : ℕ} (h : Writes s s' bound)
    (hle : bound ≤ bound') : Writes s s' bound' :=
  ⟨h.sys, fun e he => (h.log e he).imp_right fun ⟨h1, h2⟩ => ⟨h1, h2.trans hle⟩⟩

theorem Writes.trans {s s' s'' : TinyMalloc σ} {bound : ℕ} (h : Writes s s' bound)
    (h' : Writes s' s'' bound) : Writes s s'' bound := by
  refine ⟨h'.sys.trans h.sys, fun e he => ?_⟩
  rcases h'.log e he with he | ⟨h1, h2⟩
  · exact h.log e he
  · exact .inr ⟨h1.trans h.sys, h2⟩

theorem Writes.setEnd {s s' : TinyMalloc σ} {bound : ℕ} (h : Writes s s' bound) (e : Addr) :
    Writes s { s' with mallocEnd := e } bound :=
  ⟨h.sys, h.log⟩

theorem Writes.store {s s' : TinyMalloc σ} {bound q : ℕ} (h : Writes s s' bound) (v : BitVec 64)
    (hq : q < 2 ^ 64) (hbound : q + 8 ≤ bound) :
    Writes s (s'.storeHeader (BitVec.ofNat 64 q) v) bound := by
  refine ⟨h.sys, fun e he => ?_⟩
  rcases List.mem_cons.1 he with rfl | he
  · refine .inr ⟨h.sys, ?_⟩
    rwa [BitVec.toNat_ofNat, Nat.mod_eq_of_lt hq]
  · exact h.log e he

/-- The row `pre` in the state `s'`, later than `s`: it leads to `x`, and what its
blocks hold is as it was. -/
structure Front (start : MallocStart) (s s' : TinyMalloc σ) (pre : List Block) (x : Addr) :
    Prop where
  laid : Laid s'.mem s'.freelist start.base pre x
  kept : Kept s.mem s'.mem start.base pre

theorem Front.refl {s : TinyMalloc σ} {pre : List Block} {x : Addr}
    (h : Laid s.mem s.freelist start.base pre x) : Front start s s pre x :=
  ⟨h, (Agree.refl _ _ _).kept⟩

/-- A change of memory behind the row does not reach it. -/
theorem Front.behind {s s' s'' : TinyMalloc σ} {pre : List Block} {x : Addr}
    (h : Front start s s' pre x) (hok : ∀ b ∈ pre, b.Ok) (hfree : s''.freelist = s'.freelist)
    (hagree : Agree s'.mem s''.mem start.base (start.base + total pre)) :
    Front start s s'' pre x := by
  refine ⟨?_, h.kept.trans hagree.kept⟩
  rw [hfree]
  exact h.laid.congr hok hagree

theorem Front.store {s s' : TinyMalloc σ} {pre : List Block} {x : Addr} {q : ℕ}
    (h : Front start s s' pre x) (hok : ∀ b ∈ pre, b.Ok) (v : BitVec 64)
    (hq : start.base + total pre ≤ q) (hend : q + 8 ≤ 2 ^ 64) :
    Front start s (s'.storeHeader (BitVec.ofNat 64 q) v) pre x :=
  h.behind hok rfl (agree_writeLE64 _ v hend (by omega) (.inl hq))

/-- Storing to the link after a row redirects the pointer out of it and leaves
all memory behind the row alone. -/
theorem assign_link {s : TinyMalloc σ} {pre : List Block} {w : Addr}
    (h : Laid s.mem s.freelist start.base pre w) (hok : ∀ b ∈ pre, b.Ok)
    (hend : start.base + total pre < 2 ^ 64) (x : Addr) :
    Front start s (s.assign (link start pre) x) pre x ∧
      Writes s (s.assign (link start pre) x) (start.base + total pre) ∧
      ∀ lo hi, start.base + total pre ≤ lo → hi ≤ 2 ^ 64 →
        Agree s.mem (s.assign (link start pre) x).mem lo hi := by
  unfold link
  cases hlast : lastFree start.base pre with
  | none =>
    refine ⟨⟨(h.through hlast).2 x, (Agree.refl _ _ _).kept⟩, ⟨rfl, fun _ he => .inl he⟩, ?_⟩
    exact fun lo hi _ _ => Agree.refl _ _ _
  | some p =>
    have hp := lastFree_bounds hlast hok
    have hassign : s.assign (.next (BitVec.ofNat 64 p)) x =
        s.storeHeader (BitVec.ofNat 64 (p + 8)) x := setNext_ofNat s p x
    dsimp only
    rw [hassign]
    refine ⟨⟨(h.relink hlast hok hend.le).2 x, kept_relink hlast hok hend.le x⟩, ?_, ?_⟩
    · exact (Writes.refl s _).store x (by omega) (by omega)
    · intro lo hi hlo hhi
      exact agree_writeLE64 _ x (by omega) hhi (.inr (by omega))

/-! ### Handing out a free block -/

/-- What `splitBlock` and the store of the new size make of a free block: a block
handed out and a free one after it. -/
theorem splitBlock_spec {s : TinyMalloc σ} {pre post : List Block} {size r n : ℕ}
    (h : Laid s.mem s.freelist start.base (pre ++ ⟨size, none⟩ :: post) 0#64)
    (hok : ∀ b ∈ pre ++ ⟨size, none⟩ :: post, b.Ok)
    (hend : start.base + total (pre ++ ⟨size, none⟩ :: post) < 2 ^ 64)
    (hr : 16 ≤ r) (hsize : r + 16 ≤ size) :
    let block := BitVec.ofNat 64 (start.base + total pre)
    let s' := (s.splitBlock (link start pre) block (BitVec.ofNat 64 size)
      (BitVec.ofNat 64 r)).setSize block (BitVec.ofNat 64 r)
    Laid s'.mem s'.freelist start.base (pre ++ ⟨r, some n⟩ :: ⟨size - r, none⟩ :: post) 0#64 ∧
      Kept s.mem s'.mem start.base (pre ++ ⟨size, none⟩ :: post) ∧
      Writes s s' (start.base + total (pre ++ ⟨size, none⟩ :: post)) ∧
      s'.mallocEnd = s.mallocEnd := by
  intro block s'
  have hpre : ∀ b ∈ pre, b.Ok := fun b hb => hok b (List.mem_append_left _ hb)
  have hpost : ∀ b ∈ post, b.Ok :=
    fun b hb => hok b (List.mem_append_right _ (List.mem_cons_of_mem _ hb))
  obtain ⟨w, hfront, rfl, hs, hrest⟩ := laid_append.1 h
  simp only [total_append, total_cons] at hend
  set a := start.base + total pre with ha
  set u := readLE64 s.mem (BitVec.ofNat 64 (a + 8)) with hu
  have hsub : BitVec.ofNat 64 size - BitVec.ofNat 64 r = BitVec.ofNat 64 (size - r) :=
    ofNat_sub_ofNat (by omega) (by omega)
  -- the four stores, one after the other
  set s1 := s.assign (link start pre) (BitVec.ofNat 64 (a + r)) with hs1
  obtain ⟨hf1, hw1, hagree1⟩ := assign_link hfront hpre (by omega) (BitVec.ofNat 64 (a + r))
  rw [← hs1] at hf1 hw1 hagree1
  set s2 := s1.storeHeader (BitVec.ofNat 64 (a + r)) (BitVec.ofNat 64 (size - r)) with hs2
  have hf2 := hf1.store hpre (BitVec.ofNat 64 (size - r)) (q := a + r) (by omega) (by omega)
  have hw2 := (hw1.mono (show _ ≤ a + size + total post by omega)).store
    (BitVec.ofNat 64 (size - r)) (q := a + r) (by omega) (by omega)
  rw [← hs2] at hf2 hw2
  set s3 := s2.storeHeader (BitVec.ofNat 64 (a + r + 8)) u with hs3
  have hf3 := hf2.store hpre u (q := a + r + 8) (by omega) (by omega)
  have hw3 := hw2.store u (q := a + r + 8) (by omega) (by omega)
  rw [← hs3] at hf3 hw3
  have hs' : s' = s3.storeHeader (BitVec.ofNat 64 a) (BitVec.ofNat 64 r) := by
    have hderef1 := deref_link hf1.laid hpre (by omega)
    have hderef2 := deref_link hf2.laid hpre (by omega)
    show (s.splitBlock _ _ _ _).setSize _ _ = _
    unfold splitBlock
    dsimp only
    rw [next_ofNat, ← BitVec.ofNat_add, ← hs1, hderef1, hsub, ← hu]
    show (TinyMalloc.setNext s2 (s2.deref (link start pre)) u).setSize _ _ = _
    rw [hderef2, setNext_ofNat]
    rfl
  have hf4 := hf3.store hpre (BitVec.ofNat 64 r) (q := a) (by omega) (by omega)
  have hw4 := hw3.store (BitVec.ofNat 64 r) (q := a) (by omega) (by omega)
  rw [← hs'] at hf4 hw4
  have hmem : s'.mem = writeLE64 (writeLE64 (writeLE64 s1.mem (BitVec.ofNat 64 (a + r))
      (BitVec.ofNat 64 (size - r))) (BitVec.ofNat 64 (a + r + 8)) u) (BitVec.ofNat 64 a)
      (BitVec.ofNat 64 r) := by
    rw [hs']
    rfl
  have hbehind : Agree s.mem s'.mem (a + size) (a + size + total post) := by
    rw [hmem]
    refine Agree.store ?_ (by omega) (by omega) (.inr (by omega))
    refine Agree.store ?_ (by omega) (by omega) (.inr (by omega))
    refine Agree.store ?_ (by omega) (by omega) (.inr (by omega))
    exact hagree1 _ _ (by omega) (by omega)
  refine ⟨?_, ?_, ?_, ?_⟩
  · refine laid_append.2 ⟨_, hf4.laid, ?_, rfl, ?_, ?_⟩
    · rw [hmem, readLE64_writeLE64_same]
    · rw [hmem, readLE64_writeLE64_disjoint _ _ (by omega) (by omega) (by omega),
        readLE64_writeLE64_disjoint _ _ (by omega) (by omega) (by omega),
        readLE64_writeLE64_same]
    · have hnext : readLE64 s'.mem (BitVec.ofNat 64 (a + r + 8)) = u := by
        rw [hmem, readLE64_writeLE64_disjoint (x := a + r + 8) _ _ (by omega) (by omega) (by omega),
          readLE64_writeLE64_same]
      rw [← ha, hnext, show a + r + (size - r) = a + size by omega]
      exact hrest.congr hpost hbehind
  · refine kept_append.2 ⟨hf4.kept, fun h => absurd rfl h, ?_⟩
    exact hbehind.kept
  · exact hw4.mono (by simp only [total_append, total_cons]; omega)
  · rw [hs']
    show s1.mallocEnd = _
    rw [hs1, assign_mallocEnd]

/-- Taking a whole free block off the list. -/
theorem takeBlock_spec {s : TinyMalloc σ} {pre post : List Block} {size n : ℕ}
    (h : Laid s.mem s.freelist start.base (pre ++ ⟨size, none⟩ :: post) 0#64)
    (hok : ∀ b ∈ pre ++ ⟨size, none⟩ :: post, b.Ok)
    (hend : start.base + total (pre ++ ⟨size, none⟩ :: post) < 2 ^ 64) :
    let block := BitVec.ofNat 64 (start.base + total pre)
    let s' := s.assign (link start pre) (s.next block)
    Laid s'.mem s'.freelist start.base (pre ++ ⟨size, some n⟩ :: post) 0#64 ∧
      Kept s.mem s'.mem start.base (pre ++ ⟨size, none⟩ :: post) ∧
      Writes s s' (start.base + total (pre ++ ⟨size, none⟩ :: post)) ∧
      s'.mallocEnd = s.mallocEnd := by
  intro block s'
  have hpre : ∀ b ∈ pre, b.Ok := fun b hb => hok b (List.mem_append_left _ hb)
  have hpost : ∀ b ∈ post, b.Ok :=
    fun b hb => hok b (List.mem_append_right _ (List.mem_cons_of_mem _ hb))
  have hsize := (hok ⟨size, none⟩ (by simp)).room
  obtain ⟨w, hfront, rfl, hs, hrest⟩ := laid_append.1 h
  simp only [total_append, total_cons] at hend hsize
  obtain ⟨hf, hw, hagree⟩ := assign_link hfront hpre (by omega) (s.next block)
  refine ⟨?_, ?_, ?_, assign_mallocEnd s _ _⟩
  · refine laid_append.2 ⟨_, hf.laid, ?_, ?_⟩
    · exact ((hagree _ (start.base + total pre + 8) (le_refl _) (by omega)).read (le_refl _)
        (le_refl _)).trans hs
    · have hnext : s.next block = _ := next_ofNat s _
      rw [hnext]
      exact hrest.congr hpost (hagree _ _ (by omega) (by omega))
  · refine kept_append.2 ⟨hf.kept, fun h => absurd rfl h, ?_⟩
    exact (hagree _ _ (by dsimp only; omega) (by dsimp only; omega)).kept
  · exact hw.mono (by simp only [total_append]; omega)

end TinyMalloc

end KeystoneSdk
