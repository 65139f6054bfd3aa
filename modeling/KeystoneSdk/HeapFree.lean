/-
What `free` does to the heap.

* `Freed` — the heap after a block has been given back: its owner's piece is
  gone, and every other block is as it was;
* `freed_insert`, `freed_right`, `freed_left`, `freed_both` — the four ways the
  block joins the free list: alone, with the free block after it, with the one
  before it, or with both;
* **`free_spec`** — `free` of a block handed out gives it back.
-/
import KeystoneSdk.HeapMalloc

open ByteMemory BlockHeap

namespace KeystoneSdk

namespace TinyMalloc

variable {σ : Type} {start : MallocStart}

/-- From `s` to `s'` the block in the middle of the row has been given back. -/
structure Freed (start : MallocStart) (s s' : TinyMalloc σ) (pre : List Block) (size : ℕ)
    (post bs' : List Block) : Prop where
  represents : Represents start s' bs'
  chunks : chunks start.base bs' =
    chunks start.base pre ++ chunks (start.base + total pre + size) post
  kept : Kept s.mem s'.mem start.base (pre ++ ⟨size, none⟩ :: post)
  writes : Writes s s' s.mallocEnd.toNat
  top : s'.mallocEnd = s.mallocEnd

section Ways

variable {s s' : TinyMalloc σ} {front before after rest : List Block} {size n : ℕ}

/-- What `free` finds in memory: the row before the block, the block itself and the
rest, with the pointer past the block. -/
theorem Represents.atUsed {pre post : List Block}
    (h : Represents start s (pre ++ ⟨size, some n⟩ :: post)) :
    Laid s.mem s.freelist start.base pre (s.deref (link start pre)) ∧
      s.size (BitVec.ofNat 64 (start.base + total pre)) = BitVec.ofNat 64 size ∧
      Laid s.mem (s.deref (link start pre)) (start.base + total pre + size) post 0#64 := by
  have hlt := h.lt
  simp only [total_append, total_cons] at hlt
  obtain ⟨hpre, -, -⟩ := row_used.1 h.row
  obtain ⟨w, hfront, hs, hrest⟩ := laid_append.1 h.laid
  rw [deref_link hfront hpre.ok (by omega)]
  exact ⟨hfront, hs, hrest⟩

/-- The block and the free blocks around it are one free block now. -/
theorem freed_of {u : Addr} (h : Represents start s ((front ++ before) ++ ⟨size, some n⟩ :: (after ++ rest)))
    (hbefore : ∀ b ∈ before, b.use = none) (hafter : ∀ b ∈ after, b.use = none)
    (hlast : LastUsed front) (hhead : HeadUsed rest)
    (hfront : Front start s s' front (BitVec.ofNat 64 (start.base + total front)))
    (hsize : readLE64 s'.mem (BitVec.ofNat 64 (start.base + total front)) =
      BitVec.ofNat 64 (total before + size + total after))
    (hnext : readLE64 s'.mem (BitVec.ofNat 64 (start.base + total front + 8)) = u)
    (hu : Laid s.mem u (start.base + total front + (total before + size + total after)) rest 0#64)
    (hbehind : Agree s.mem s'.mem
      (start.base + total front + (total before + size + total after))
      (start.base + total front + (total before + size + total after) + total rest))
    (hwrites : Writes s s' s.mallocEnd.toNat) (htop : s'.mallocEnd = s.mallocEnd) :
    Freed start s s' (front ++ before) size (after ++ rest)
      (front ++ ⟨total before + size + total after, none⟩ :: rest) := by
  obtain ⟨hpre, hok, hpost⟩ := row_used.1 h.row
  obtain ⟨hrowf, hrowb, -⟩ := row_append.1 hpre
  obtain ⟨hrowa, hrowr, -⟩ := row_append.1 hpost
  have hroom : 16 ≤ size := hok.room
  have haligned : size % 8 = 0 := hok.aligned
  have hb8 := total_aligned hrowb.ok
  have ha8 := total_aligned hrowa.ok
  have hfree : (⟨total before + size + total after, none⟩ : Block).Ok :=
    ⟨by show 16 ≤ total before + size + total after; omega,
      by show (total before + size + total after) % 8 = 0; omega, nofun⟩
  -- the merged block takes the place of all of them, with the link behind the last
  have htotal : total (front ++ ⟨total before + size + total after, none⟩ :: rest) =
      total ((front ++ before) ++ ⟨size, some n⟩ :: (after ++ rest)) := by
    simp only [total_append, total_cons]
    omega
  have hpos : start.base + total (front ++ before) + size + total after =
      start.base + total front + (total before + size + total after) := by
    rw [total_append]
    omega
  refine ⟨⟨?_, row_free.2 ⟨hrowf, hfree, hrowr, hlast, hhead⟩, ?_, ?_⟩, ?_, ?_, hwrites, htop⟩
  · refine laid_append.2 ⟨_, hfront.laid, rfl, hsize, ?_⟩
    rw [hnext]
    exact hu.congr hrowr.ok hbehind
  · rw [htotal]
    exact h.below
  · rw [htop, h.top, htotal]
  · rw [chunks_append, chunks_append, chunks_append _ after, chunks_free hbefore,
      chunks_free hafter, hpos, List.append_nil, List.nil_append]
    rfl
  · refine kept_append.2 ⟨kept_append.2 ⟨hfront.kept, kept_free hbefore⟩, fun h => absurd rfl h, ?_⟩
    refine kept_append.2 ⟨kept_free hafter, ?_⟩
    show Kept s.mem s'.mem (start.base + total (front ++ before) + size + total after) rest
    rw [hpos]
    exact hbehind.kept

/-- The block becomes a free one between two that are not. -/
theorem freed_insert (h : Represents start s (front ++ ⟨size, some n⟩ :: rest))
    (hlast : LastUsed front) (hhead : HeadUsed rest) :
    let block := BitVec.ofNat 64 (start.base + total front)
    Freed start s ((s.setNext block (s.deref (link start front))).assign (link start front) block)
      front size rest (front ++ ⟨size, none⟩ :: rest) := by
  intro block
  obtain ⟨hpre, hok, hpost⟩ := row_used.1 h.row
  have hsize : 16 ≤ size := hok.room
  have hlt := h.lt
  have htop := h.top_toNat
  simp only [total_append, total_cons] at hlt htop
  obtain ⟨hfront, hs, hrest⟩ := h.atUsed
  set v := s.deref (link start front) with hv
  set a := start.base + total front with ha
  -- first the link of the block, then the link to it
  set s1 := s.setNext block v with hs1
  have hstore : s1 = s.storeHeader (BitVec.ofNat 64 (a + 8)) v := setNext_ofNat s a v
  have hf1 : Front start s s1 front v := by
    rw [hstore]
    exact (Front.refl hfront).store hpre.ok v (by omega) (by omega)
  have hw1 : Writes s s1 s.mallocEnd.toNat := by
    rw [hstore]
    exact (Writes.refl s _).store v (by omega) (by omega)
  have hmem1 : s1.mem = writeLE64 s.mem (BitVec.ofNat 64 (a + 8)) v := by
    rw [hstore]
    rfl
  obtain ⟨hf2, hw2, hagree⟩ := assign_link hf1.laid hpre.ok (by omega) block
  have hread : ∀ x, a ≤ x → x + 8 ≤ 2 ^ 64 → readLE64 (s1.assign (link start front) block).mem
      (BitVec.ofNat 64 x) = readLE64 s1.mem (BitVec.ofNat 64 x) :=
    fun x hx hx' => (hagree x (x + 8) hx hx').read (le_refl _) (le_refl _)
  have h' : Represents start s ((front ++ []) ++ ⟨size, some n⟩ :: ([] ++ rest)) := by
    simpa using h
  have hfreed := freed_of h' nofun nofun hlast hhead
    ⟨hf2.laid, hf1.kept.trans hf2.kept⟩ ?_ ?_ ?_ ?_ (hw1.trans (hw2.mono (by omega))) ?_ (u := v)
  · simpa using hfreed
  · rw [total_nil, Nat.zero_add, Nat.add_zero, hread _ (le_refl _) (by omega), hmem1,
      readLE64_writeLE64_disjoint _ _ (by omega) (by omega) (by omega)]
    exact hs
  · rw [hread _ (by omega) (by omega), hmem1, readLE64_writeLE64_same]
  · simpa using hrest
  · rw [total_nil, Nat.zero_add, Nat.add_zero]
    refine Agree.trans ?_ (hagree _ _ (by omega) (by omega))
    rw [hmem1]
    exact agree_writeLE64 _ _ (by omega) (by omega) (.inr (by omega))
  · rw [assign_mallocEnd, hs1, setNext_mallocEnd]

/-- The block takes in the free block after it. -/
theorem freed_right {q : ℕ}
    (h : Represents start s (front ++ ⟨size, some n⟩ :: ⟨q, none⟩ :: rest))
    (hlast : LastUsed front) :
    let block := BitVec.ofNat 64 (start.base + total front)
    let this := BitVec.ofNat 64 (start.base + total front + size)
    let s1 := s.setSize block (BitVec.ofNat 64 (size + q))
    Freed start s ((s1.setNext block (s1.next this)).assign (link start front) block)
      front size (⟨q, none⟩ :: rest) (front ++ ⟨size + q, none⟩ :: rest) := by
  intro block this s1
  obtain ⟨hpre, hok, hrow⟩ := row_used.1 h.row
  obtain ⟨hokq, hpost, hhead⟩ := row_free_cons.1 hrow
  have hsize : 16 ≤ size := hok.room
  have hq : 16 ≤ q := hokq.room
  have hlt := h.lt
  have htop := h.top_toNat
  simp only [total_append, total_cons] at hlt htop
  obtain ⟨hfront, -, hv, -, hrest⟩ := h.atUsed
  set a := start.base + total front with ha
  set u := readLE64 s.mem (BitVec.ofNat 64 (a + size + 8)) with hu
  have hnext : s1.next this = u := by
    rw [next_ofNat]
    exact readLE64_writeLE64_disjoint _ _ (by omega) (by omega) (by omega)
  rw [hnext]
  -- the size of the block, its link, then the link to it
  set s2 := s1.setNext block u with hs2
  have hstore : s2 = (s.storeHeader (BitVec.ofNat 64 a)
      (BitVec.ofNat 64 (size + q))).storeHeader (BitVec.ofNat 64 (a + 8)) u := setNext_ofNat s1 a u
  have hf2 : Front start s s2 front (s.deref (link start front)) := by
    rw [hstore]
    exact ((Front.refl hfront).store hpre.ok _ (le_refl _) (by omega)).store hpre.ok u
      (by omega) (by omega)
  have hw2 : Writes s s2 s.mallocEnd.toNat := by
    rw [hstore]
    exact ((Writes.refl s _).store _ (by omega) (by omega)).store u (by omega) (by omega)
  have hmem2 : s2.mem = writeLE64 (writeLE64 s.mem (BitVec.ofNat 64 a)
      (BitVec.ofNat 64 (size + q))) (BitVec.ofNat 64 (a + 8)) u := by
    rw [hstore]
    rfl
  obtain ⟨hf3, hw3, hagree⟩ := assign_link hf2.laid hpre.ok (by omega) block
  have hread : ∀ x, a ≤ x → x + 8 ≤ 2 ^ 64 → readLE64 (s2.assign (link start front) block).mem
      (BitVec.ofNat 64 x) = readLE64 s2.mem (BitVec.ofNat 64 x) :=
    fun x hx hx' => (hagree x (x + 8) hx hx').read (le_refl _) (le_refl _)
  have h' : Represents start s ((front ++ []) ++ ⟨size, some n⟩ :: ([⟨q, none⟩] ++ rest)) := by
    simpa using h
  have hfreed := freed_of h' nofun (by simp) hlast hhead
    ⟨hf3.laid, hf2.kept.trans hf3.kept⟩ ?_ ?_ ?_ ?_ (hw2.trans (hw3.mono (by omega))) ?_ (u := u)
  · simpa using hfreed
  · rw [hread _ (le_refl _) (by omega), hmem2,
      readLE64_writeLE64_disjoint _ _ (by omega) (by omega) (by omega), readLE64_writeLE64_same]
    simp
  · rw [hread _ (by omega) (by omega), hmem2, readLE64_writeLE64_same]
  · simpa [ha, Nat.add_assoc] using hrest
  · simp only [total_nil, total_cons, Nat.zero_add, Nat.add_zero]
    refine Agree.trans ?_ (hagree _ _ (by omega) (by omega))
    rw [hmem2]
    refine Agree.store ?_ (by omega) (by omega) (.inr (by omega))
    exact agree_writeLE64 _ _ (by omega) (by omega) (.inr (by omega))
  · rw [assign_mallocEnd]
    rfl

/-- The free block before the block takes it in. -/
theorem freed_left {sz : ℕ}
    (h : Represents start s ((front ++ [⟨sz, none⟩]) ++ ⟨size, some n⟩ :: rest))
    (hhead : HeadUsed rest) :
    Freed start s
      (s.setSize (BitVec.ofNat 64 (start.base + total front)) (BitVec.ofNat 64 (sz + size)))
      (front ++ [⟨sz, none⟩]) size rest (front ++ ⟨sz + size, none⟩ :: rest) := by
  obtain ⟨hfirst, hok, hpost⟩ := row_used.1 h.row
  obtain ⟨hpre, hokz, -, hlast, -⟩ := row_free.1 hfirst
  have hsize : 16 ≤ size := hok.room
  have hsz : 16 ≤ sz := hokz.room
  have hlt := h.lt
  have htop := h.top_toNat
  simp only [total_append, total_cons, total_nil] at hlt htop
  have h1 : Represents start s (front ++ ⟨sz, none⟩ :: ⟨size, some n⟩ :: rest) := by
    simpa using h
  have hat := h1.atFree
  obtain ⟨w, hfront, rfl, -⟩ := laid_append.1 h1.laid
  set a := start.base + total front with ha
  -- only the size of the block before changes: it is in the list already
  have hf : Front start s (s.setSize (BitVec.ofNat 64 a) (BitVec.ofNat 64 (sz + size))) front
      (BitVec.ofNat 64 a) :=
    (Front.refl hfront).store hpre.ok _ (le_refl _) (by omega)
  have h' : Represents start s ((front ++ [⟨sz, none⟩]) ++ ⟨size, some n⟩ :: ([] ++ rest)) := by
    simpa using h
  have hfreed := freed_of h' (by simp) nofun hlast hhead hf ?_ ?_ ?_ ?_
    ((Writes.refl s _).store _ (by omega) (by omega)) rfl (u := s.next (BitVec.ofNat 64 a))
  · simpa using hfreed
  · rw [← ha]
    show readLE64 (writeLE64 s.mem _ _) _ = _
    rw [readLE64_writeLE64_same]
    simp
  · rw [← ha, next_ofNat]
    exact readLE64_writeLE64_disjoint _ _ (by omega) (by omega) (by omega)
  · simpa [Nat.add_assoc] using hat.behind.2
  · simp only [total_nil, total_cons, Nat.add_zero]
    exact agree_writeLE64 _ _ (by omega) (by omega) (.inr (by omega))

/-- The free blocks on both sides and the block become one. -/
theorem freed_both {sz q : ℕ}
    (h : Represents start s ((front ++ [⟨sz, none⟩]) ++ ⟨size, some n⟩ :: ⟨q, none⟩ :: rest)) :
    let this := BitVec.ofNat 64 (start.base + total front)
    let s1 := s.setSize this (BitVec.ofNat 64 (sz + size))
    let s2 := s1.setSize this (s1.size this + s1.size (s1.next this))
    Freed start s (s2.setNext this (s2.next (s2.next this)))
      (front ++ [⟨sz, none⟩]) size (⟨q, none⟩ :: rest) (front ++ ⟨sz + size + q, none⟩ :: rest) := by
  intro this s1 s2
  obtain ⟨hfirst, hok, hrow⟩ := row_used.1 h.row
  obtain ⟨hpre, hokz, -, hlast, -⟩ := row_free.1 hfirst
  obtain ⟨hokq, hpost, hhead⟩ := row_free_cons.1 hrow
  have hsize : 16 ≤ size := hok.room
  have hsz : 16 ≤ sz := hokz.room
  have hq : 16 ≤ q := hokq.room
  have hlt := h.lt
  have htop := h.top_toNat
  simp only [total_append, total_cons, total_nil] at hlt htop
  have h1 : Represents start s (front ++ ⟨sz, none⟩ :: ⟨size, some n⟩ :: ⟨q, none⟩ :: rest) := by
    simpa using h
  obtain ⟨-, hv, hqsize, hrest⟩ := h1.atFree.behind
  obtain ⟨w, hfront, rfl, -⟩ := laid_append.1 h1.laid
  set a := start.base + total front with ha
  set u := readLE64 s.mem (BitVec.ofNat 64 (a + sz + size + 8)) with hu
  have hthis : this = BitVec.ofNat 64 a := rfl
  -- what the loads of the three assignments give
  have hsize1 : s1.size this = BitVec.ofNat 64 (sz + size) := readLE64_writeLE64_same _ _ _
  have hnext1 : s1.next this = BitVec.ofNat 64 (a + sz + size) := by
    rw [hthis, next_ofNat, ← hv, next_ofNat]
    exact readLE64_writeLE64_disjoint _ _ (by omega) (by omega) (by omega)
  have hsizeq : s1.size (BitVec.ofNat 64 (a + sz + size)) = BitVec.ofNat 64 q :=
    (readLE64_writeLE64_disjoint _ _ (by omega) (by omega) (by omega)).trans hqsize
  have hs2 : s2 = s1.storeHeader (BitVec.ofNat 64 a) (BitVec.ofNat 64 (sz + size + q)) := by
    show s1.setSize this _ = _
    rw [hsize1, hnext1, hsizeq, ← BitVec.ofNat_add]
    rfl
  have hnext2 : s2.next this = BitVec.ofNat 64 (a + sz + size) := by
    rw [← hnext1, hs2, hthis, next_ofNat, next_ofNat]
    exact readLE64_writeLE64_disjoint _ _ (by omega) (by omega) (by omega)
  have hnextq : s2.next (BitVec.ofNat 64 (a + sz + size)) = u := by
    rw [hs2, next_ofNat]
    refine (readLE64_writeLE64_disjoint _ _ (by omega) (by omega) (by omega)).trans ?_
    exact readLE64_writeLE64_disjoint _ _ (by omega) (by omega) (by omega)
  rw [hnext2, hnextq]
  set s3 := s2.setNext this u with hs3
  have hstore : s3 = ((s.storeHeader (BitVec.ofNat 64 a) (BitVec.ofNat 64 (sz + size))).storeHeader
      (BitVec.ofNat 64 a) (BitVec.ofNat 64 (sz + size + q))).storeHeader
        (BitVec.ofNat 64 (a + 8)) u := by
    rw [hs3, hthis, setNext_ofNat, hs2]
    rfl
  have hf3 : Front start s s3 front (BitVec.ofNat 64 a) := by
    rw [hstore]
    exact (((Front.refl hfront).store hpre.ok _ (le_refl _) (by omega)).store hpre.ok _ (le_refl _)
      (by omega)).store hpre.ok u (by omega) (by omega)
  have hw3 : Writes s s3 s.mallocEnd.toNat := by
    rw [hstore]
    exact (((Writes.refl s _).store _ (by omega) (by omega)).store _ (by omega) (by omega)).store u
      (by omega) (by omega)
  have hmem3 : s3.mem = writeLE64 (writeLE64 (writeLE64 s.mem (BitVec.ofNat 64 a)
      (BitVec.ofNat 64 (sz + size))) (BitVec.ofNat 64 a) (BitVec.ofNat 64 (sz + size + q)))
        (BitVec.ofNat 64 (a + 8)) u := by
    rw [hstore]
    rfl
  have h' : Represents start s
      ((front ++ [⟨sz, none⟩]) ++ ⟨size, some n⟩ :: ([⟨q, none⟩] ++ rest)) := by
    simpa using h
  have hfreed := freed_of h' (by simp) (by simp) hlast hhead hf3 ?_ ?_ ?_ ?_ hw3 ?_ (u := u)
  · simpa using hfreed
  · rw [← ha, hmem3, readLE64_writeLE64_disjoint _ _ (by omega) (by omega) (by omega),
      readLE64_writeLE64_same]
    simp
  · rw [← ha, hmem3, readLE64_writeLE64_same]
  · simpa [ha, Nat.add_assoc] using hrest
  · simp only [total_nil, total_cons, Nat.add_zero]
    rw [hmem3]
    refine Agree.store ?_ (by omega) (by omega) (.inr (by omega))
    refine Agree.store ?_ (by omega) (by omega) (.inr (by omega))
    exact agree_writeLE64 _ _ (by omega) (by omega) (.inr (by omega))
  · rw [hstore]
    rfl

end Ways

/-! ### The loop -/

/-- A block that ends in the heap is not behind another one. -/
theorem ofNat_add_ofNat_ne {x y z : ℕ} (h : x + y < 2 ^ 64) (hz : z < 2 ^ 64) (hne : x + y ≠ z) :
    BitVec.ofNat 64 x + BitVec.ofNat 64 y ≠ BitVec.ofNat 64 z := by
  rw [← BitVec.ofNat_add]
  exact fun heq => hne ((ofNat_inj h hz).1 heq)

/-- The round of the loop at the link past everything before the block. -/
theorem freeLoop_here {s : TinyMalloc σ} {pre post : List Block} {size n fuel : ℕ}
    (h : Represents start s (pre ++ ⟨size, some n⟩ :: post)) (hlast : LastUsed pre) :
    ∃ s' bs', freeLoop (BitVec.ofNat 64 (start.base + total pre)) (fuel + 1) (link start pre) s =
      some s' ∧ Freed start s s' pre size post bs' := by
  obtain ⟨-, hs, hrest⟩ := h.atUsed
  obtain ⟨-, hok, -⟩ := row_used.1 h.row
  have hsize : 16 ≤ size := hok.room
  have hbelow := h.below
  simp only [total_append, total_cons] at hbelow
  unfold freeLoop
  dsimp only
  rcases hrest.pointer with ⟨hv, hused⟩ | ⟨used, q, rest, rfl, hused, hv, hq⟩
  · rw [if_pos hv]
    exact ⟨_, _, rfl, freed_insert h hlast fun b hb => hused b (List.mem_of_head? hb)⟩
  · have hqroom : 16 ≤ q := (h.row.ok ⟨q, none⟩ (by simp)).room
    have hpos := start.base_pos
    simp only [total_append, total_cons] at hbelow
    have hnonnull : s.deref (link start pre) ≠ 0#64 := by
      rw [hv]
      intro hzero
      have := (ofNat_inj (by omega) (by omega)).1 hzero
      omega
    -- the first free block is behind the block, so it does not end where that starts
    have hleft : s.deref (link start pre) + s.size (s.deref (link start pre)) ≠
        BitVec.ofNat 64 (start.base + total pre) := by
      have hsizeq : s.size (s.deref (link start pre)) = BitVec.ofNat 64 q := hq
      rw [hsizeq, hv]
      exact ofNat_add_ofNat_ne (by omega) (by omega) (by omega)
    rw [if_neg hnonnull, if_neg hleft, hs, ← BitVec.ofNat_add]
    rcases used with _ | ⟨b, used⟩
    · -- it starts where the block ends
      rw [total_nil, Nat.add_zero] at hv
      rw [if_pos hv, hv]
      have hsizeq : s.size (BitVec.ofNat 64 (start.base + total pre + size)) =
          BitVec.ofNat 64 q := by
        rw [← hv]
        exact hq
      rw [hsizeq, ← BitVec.ofNat_add]
      exact ⟨_, _, rfl, freed_right h hlast⟩
    · have hb := (h.row.ok b (by simp)).room
      rw [total_cons] at hv hbelow
      have hne : s.deref (link start pre) ≠ BitVec.ofNat 64 (start.base + total pre + size) := by
        rw [hv]
        intro heq
        have := (ofNat_inj (by omega) (by omega)).1 heq
        omega
      have hlt : BitVec.ofNat 64 (start.base + total pre) < s.deref (link start pre) := by
        rw [hv, ofNat_lt_ofNat (by omega) (by omega)]
        omega
      rw [if_neg hne, if_pos hlt]
      refine ⟨_, _, rfl, freed_insert h hlast ?_⟩
      intro c hc
      obtain rfl := Option.some.inj hc
      exact hused b List.mem_cons_self

/-- The round of the loop at the free block right before the block. -/
theorem freeLoop_before {s : TinyMalloc σ} {front post : List Block} {sz size n fuel : ℕ}
    (h : Represents start s ((front ++ [⟨sz, none⟩]) ++ ⟨size, some n⟩ :: post)) :
    ∃ s' bs', freeLoop (BitVec.ofNat 64 (start.base + total (front ++ [⟨sz, none⟩]))) (fuel + 1)
      (link start front) s = some s' ∧ Freed start s s' (front ++ [⟨sz, none⟩]) size post bs' := by
  have h1 : Represents start s (front ++ ⟨sz, none⟩ :: ⟨size, some n⟩ :: post) := by
    simpa using h
  have hat := h1.atFree
  obtain ⟨hfirst, hok, hpost⟩ := row_used.1 h.row
  have hsize : 16 ≤ size := hok.room
  have hsz : 16 ≤ sz := (hfirst.ok ⟨sz, none⟩ (by simp)).room
  have hbelow := h.below
  have hpos := start.base_pos
  simp only [total_append, total_cons, total_nil] at hbelow
  set a := start.base + total front with ha
  have hblock : start.base + total (front ++ [⟨sz, none⟩]) = a + sz := by
    simp only [total_append, total_cons, total_nil]
    omega
  obtain ⟨hs, hrest⟩ := hat.behind
  have hsize0 : s.size (BitVec.ofNat 64 (a + sz)) = BitVec.ofNat 64 size := hs
  unfold freeLoop
  dsimp only
  rw [hblock, hat.pointer, if_neg hat.nonnull, hat.header, ← BitVec.ofNat_add, if_pos rfl, hsize0,
    ← BitVec.ofNat_add]
  -- the pointer past the block, and what the block holds, after the first store
  set s1 := s.setSize (BitVec.ofNat 64 a) (BitVec.ofNat 64 (sz + size)) with hs1
  have hnext1 : s1.next (BitVec.ofNat 64 a) = s.next (BitVec.ofNat 64 a) := by
    rw [next_ofNat, next_ofNat]
    exact readLE64_writeLE64_disjoint _ _ (by omega) (by omega) (by omega)
  have hsize1 : s1.size (BitVec.ofNat 64 (a + sz)) = BitVec.ofNat 64 size :=
    (readLE64_writeLE64_disjoint _ _ (by omega) (by omega) (by omega)).trans hsize0
  rcases hrest.pointer with ⟨hv, hused⟩ | ⟨used, q, rest, rfl, hused, hv, hq⟩
  · rw [if_neg fun hcond => hcond.1 (hnext1.trans hv)]
    exact ⟨_, _, rfl, freed_left h fun b hb => hused b (List.mem_of_head? hb)⟩
  · simp only [total_append, total_cons] at hbelow
    rcases used with _ | ⟨b, used⟩
    · rw [total_nil, Nat.add_zero] at hv
      have hcond : s1.next (BitVec.ofNat 64 a) ≠ 0#64 ∧
          BitVec.ofNat 64 (a + sz) + s1.size (BitVec.ofNat 64 (a + sz)) =
            s1.next (BitVec.ofNat 64 a) := by
        rw [hsize1, hnext1, hv, ← BitVec.ofNat_add]
        refine ⟨fun hzero => ?_, rfl⟩
        have := (ofNat_inj (by omega) (by omega)).1 hzero
        omega
      rw [if_pos hcond]
      exact ⟨_, _, rfl, freed_both h⟩
    · have hb := (h.row.ok b (by simp)).room
      rw [total_cons] at hv hbelow
      have hcond : ¬ (s1.next (BitVec.ofNat 64 a) ≠ 0#64 ∧
          BitVec.ofNat 64 (a + sz) + s1.size (BitVec.ofNat 64 (a + sz)) =
            s1.next (BitVec.ofNat 64 a)) := by
        rw [hsize1, hnext1, hv]
        exact fun hcond => ofNat_add_ofNat_ne (by omega) (by omega) (by omega) hcond.2
      rw [if_neg hcond]
      refine ⟨_, _, rfl, freed_left h ?_⟩
      intro c hc
      obtain rfl := Option.some.inj hc
      exact hused b List.mem_cons_self

/-- The loop over the free list, after the blocks `front`: the induction is on the
blocks between there and the block given back. -/
theorem freeLoop_spec {s : TinyMalloc σ} (front mid : List Block) {post : List Block}
    {size n fuel : ℕ}
    (h : Represents start s ((front ++ mid) ++ ⟨size, some n⟩ :: post))
    (hlast : mid = [] → LastUsed front) (hfuel : mid.length < fuel) :
    ∃ s' bs', freeLoop (BitVec.ofNat 64 (start.base + total (front ++ mid))) fuel
      (link start front) s = some s' ∧ Freed start s s' (front ++ mid) size post bs' := by
  induction mid generalizing front fuel with
  | nil =>
    obtain ⟨fuel, rfl⟩ : ∃ f, fuel = f + 1 := ⟨fuel - 1, by simp at hfuel; omega⟩
    rw [List.append_nil] at h ⊢
    exact freeLoop_here h (hlast rfl)
  | cons b mid ih =>
    have hassoc : front ++ b :: mid = (front ++ [b]) ++ mid := by simp
    obtain ⟨sz, use⟩ := b
    rcases use with _ | m
    · obtain ⟨fuel, rfl⟩ : ∃ f, fuel = f + 1 := ⟨fuel - 1, by simp at hfuel; omega⟩
      rcases mid with _ | ⟨c, mid⟩
      · exact freeLoop_before h
      · -- the free block ends before the block does: the loop goes on
        have h1 : Represents start s
            (front ++ ⟨sz, none⟩ :: (c :: mid ++ ⟨size, some n⟩ :: post)) := by
          simpa using h
        have hat := h1.atFree
        have hsz : 16 ≤ sz := (h.row.ok ⟨sz, none⟩ (by simp)).room
        have hc := (h.row.ok c (by simp)).room
        have hsize : 16 ≤ size := (h.row.ok ⟨size, some n⟩ (by simp)).room
        have hbelow := h1.below
        simp only [List.cons_append, total_append, total_cons] at hbelow
        have hs : s.size (BitVec.ofNat 64 (start.base + total (front ++ ⟨sz, none⟩ :: c :: mid))) =
            BitVec.ofNat 64 size := h.atUsed.2.1
        have hblock : start.base + total (front ++ ⟨sz, none⟩ :: c :: mid) =
            start.base + total front + sz + (c.size + total mid) := by
          simp only [total_append, total_cons]
          omega
        unfold freeLoop
        dsimp only
        rw [hat.pointer, hat.header, hs, hblock, if_neg hat.nonnull,
          if_neg (ofNat_add_ofNat_ne (by omega) (by omega) (by omega)),
          if_neg (ofNat_add_ofNat_ne (by omega) (by omega) (by omega)).symm, if_neg, ← hblock,
          ← link_free front sz]
        · rw [hassoc] at h ⊢
          exact ih _ h nofun (by simp at hfuel ⊢; omega)
        · rw [ofNat_lt_ofNat (by omega) (by omega)]
          omega
    · rw [hassoc] at h ⊢
      rw [← link_live front sz m]
      exact ih _ h (fun _ => lastUsed_append_used front sz m) (by simp at hfuel; omega)

/-- **`free`** of a block handed out gives it back. -/
theorem free_spec {s : TinyMalloc σ} {pre post : List Block} {size n : ℕ}
    (h : Represents start s (pre ++ ⟨size, some n⟩ :: post)) :
    ∃ s' bs', free (BitVec.ofNat 64 (start.base + total pre + 8)) s = some s' ∧
      Freed start s s' pre size post bs' := by
  have hlen := h.length_lt
  have hbelow := h.below
  simp only [total_append, total_cons] at hbelow
  have hsize : 16 ≤ size := (h.row.ok ⟨size, some n⟩ (by simp)).room
  have hnonnull : BitVec.ofNat 64 (start.base + total pre + 8) ≠ 0#64 := by
    intro hzero
    have := (ofNat_inj (by omega) (by omega)).1 hzero
    omega
  have hblock : BitVec.ofNat 64 (start.base + total pre + 8) - 8#64 =
      BitVec.ofNat 64 (start.base + total pre) :=
    ofNat_sub_ofNat (y := 8) (by omega) (by omega)
  unfold free
  dsimp only
  rw [if_neg hnonnull, hblock]
  exact freeLoop_spec [] pre h (fun _ => lastUsed_nil)
    (by simp only [List.length_append, List.length_cons] at hlen; omega)

end TinyMalloc

end KeystoneSdk
