/-
What `calloc` and `realloc` do to the heap.

* `Effects` — the stores to block headers of a call, and what it does to the
  end of the heap and to what `s_brk` works on;
* `Represents.withMem`, `Represents.write` — a store into a piece handed out
  leaves the heap alone;
* `Represents.request` — the size a piece was asked for is known to its owner
  only;
* **`calloc_spec`**, **`realloc_spec`** — null and the same heap, or a piece with
  the contents the caller expects.
-/
import KeystoneSdk.HeapFree

open ByteMemory BlockHeap

namespace KeystoneSdk

namespace TinyMalloc

variable {σ : Type} {start : MallocStart} {sBrk : SBrk σ}

theorem ofNat_toNat (x : BitVec 64) : BitVec.ofNat 64 x.toNat = x :=
  (BitVec.ofNat_toNat 64 _).trans (BitVec.setWidth_eq _)

/-! ### Stores into pieces -/

section Stores

variable {s : TinyMalloc σ} {bs : List Block} {c : Chunk}

theorem Represents.withMem {m : Mem} (h : Represents start s bs)
    (hsame : Headers s.mem m start.base bs) : Represents start { s with mem := m } bs :=
  ⟨h.laid.headers hsame, h.row, h.below, h.top⟩

/-- Pieces of a heap are where they are, or apart. -/
theorem Represents.apart {d : Chunk} (h : Represents start s bs)
    (hc : c ∈ chunks start.base bs) (hd : d ∈ chunks start.base bs) (hne : d.ptr ≠ c.ptr) :
    c.ptr.toNat + c.request + 8 ≤ d.ptr.toNat ∨ d.ptr.toNat + d.request + 8 ≤ c.ptr.toNat := by
  have hsorted := chunks_sorted h.row.ok h.lt
  have hpair := List.Pairwise.forall_of_forall_of_flip
    (R := fun c d : Chunk => d.ptr ≠ c.ptr →
      c.ptr.toNat + c.request + 8 ≤ d.ptr.toNat ∨ d.ptr.toNat + d.request + 8 ≤ c.ptr.toNat)
    (fun c _ hne' => absurd rfl hne') (hsorted.imp fun hlt _ => .inl hlt)
    (hsorted.imp fun hlt _ => .inr hlt)
  exact hpair hc hd hne

/-- Two pieces at one address are one piece. -/
theorem Represents.chunk_eq {d : Chunk} (h : Represents start s bs)
    (hc : c ∈ chunks start.base bs) (hd : d ∈ chunks start.base bs) (hptr : d.ptr = c.ptr) :
    d = c := by
  by_contra hne
  have hsorted := chunks_sorted h.row.ok h.lt
  have hpair := List.Pairwise.forall_of_forall_of_flip
    (R := fun c d : Chunk => d ≠ c → d.ptr ≠ c.ptr)
    (fun c _ hne' => absurd rfl hne')
    (hsorted.imp fun {c d} hlt _ heq => by rw [heq] at hlt; omega)
    (hsorted.imp fun {c d} hlt _ heq => by rw [← heq] at hlt; omega)
  exact hpair hc hd hne hptr

/-- A store into a piece changes no other piece, and nothing of the heap. -/
theorem Represents.write (h : Represents start s bs) (hc : c ∈ chunks start.base bs) {len : ℕ}
    (hlen : len ≤ c.request) (f : ℕ → Byte) :
    Represents start { s with mem := writeBytes s.mem c.ptr len f } bs ∧
      ∀ d ∈ chunks start.base bs, d.ptr ≠ c.ptr →
        d.bytes (writeBytes s.mem c.ptr len f) = d.bytes s.mem := by
  have hbounds := chunk_inside hc h.row.ok h.lt
  have hlt := h.lt
  have hptr : c.ptr = BitVec.ofNat 64 c.ptr.toNat := (ofNat_toNat _).symm
  constructor
  · refine h.withMem (headers_of_owned h.row.ok h.lt fun i hi1 hi2 hout => ?_)
    rw [hptr, writeBytes_ofNat _ _ (by omega) (by omega), if_neg]
    exact fun hin => hout ⟨c, hc, hin.1, by omega⟩
  · intro d hd hne
    have hd' := chunk_inside hd h.row.ok h.lt
    have hdptr : d.ptr = BitVec.ofNat 64 d.ptr.toNat := (ofNat_toNat _).symm
    have hapart := h.apart hc hd hne
    unfold Chunk.bytes
    rw [hptr, hdptr]
    exact readBytes_writeBytes_disjoint _ _ (by omega) (by omega) (by omega)

/-- The size a piece was asked for is not in memory. -/
theorem Represents.request {pre post : List Block} {size n n' : ℕ}
    (h : Represents start s (pre ++ ⟨size, some n⟩ :: post)) (hn : n' + 8 ≤ size) :
    Represents start s (pre ++ ⟨size, some n'⟩ :: post) := by
  obtain ⟨hpre, hok, hpost⟩ := row_used.1 h.row
  have htotal : total (pre ++ ⟨size, some n'⟩ :: post) = total (pre ++ ⟨size, some n⟩ :: post) := by
    simp only [total_append, total_cons]
  refine ⟨?_, row_used.2 ⟨hpre, ⟨hok.room, hok.aligned, fun k hk => ?_⟩, hpost⟩, ?_, ?_⟩
  · obtain ⟨u, hfront, hback⟩ := laid_append.1 h.laid
    exact laid_append.2 ⟨u, hfront, hback⟩
  · obtain rfl := Option.some.inj hk
    exact hn
  · rw [htotal]
    exact h.below
  · rw [htotal]
    exact h.top

end Stores

/-! ### Results -/

/-- From `s` to `s'` the pieces `others` have been kept, and a piece of `n` bytes at `p`
has joined them. -/
structure Gives (start : MallocStart) (s s' : TinyMalloc σ) (bs' : List Block)
    (others : List Chunk) (p : Addr) (n : ℕ) : Prop where
  represents : Represents start s' bs'
  chunks : (chunks start.base bs').Perm (⟨p, n⟩ :: others)
  kept : ∀ c ∈ others, c.bytes s'.mem = c.bytes s.mem

/-- What a call of `malloc`, `calloc`, `realloc` or `free` does besides: the stores to
headers, before and after the break has been checked, and how far the heap grows. -/
structure Effects (sBrk : SBrk σ) (s s' : TinyMalloc σ) : Prop where
  log : ∀ e ∈ s'.headers, e ∈ s.headers ∨
    (e.2 = s.sys ∧ e.1.toNat + 8 ≤ s.mallocEnd.toNat + 8) ∨
    (e.2 = s'.sys ∧ e.1.toNat + 8 ≤ s'.mallocEnd.toNat)
  sys : (s'.sys = s.sys ∧ s'.mallocEnd = s.mallocEnd) ∨
    ∃ p r, s'.sys = checkedSys sBrk s.sys p (BitVec.ofNat 64 r) ∧
      s'.mallocEnd.toNat ≤ max s.mallocEnd.toNat (p.toNat + r - 8) ∧ p.toNat + r < 2 ^ 64

theorem Effects.refl (s : TinyMalloc σ) : Effects sBrk s s :=
  ⟨fun _ he => .inl he, .inl ⟨rfl, rfl⟩⟩

theorem Effects.withMem {s s' : TinyMalloc σ} (h : Effects sBrk s s') (m : Mem) :
    Effects sBrk s { s' with mem := m } :=
  ⟨h.log, h.sys⟩

theorem Effects.of_writes {s s' : TinyMalloc σ} (h : Writes s s' s.mallocEnd.toNat)
    (htop : s'.mallocEnd = s.mallocEnd) : Effects sBrk s s' :=
  ⟨fun e he => (h.log e he).imp_right fun ⟨h1, h2⟩ => .inl ⟨h1, h2.trans (Nat.le_add_right _ 8)⟩,
    .inl ⟨h.sys, htop⟩⟩

/-- A call that ends with other stores, and leaves the end of the heap alone. -/
theorem Effects.after {s s' s'' : TinyMalloc σ} (h : Effects sBrk s s')
    (hw : Writes s' s'' s'.mallocEnd.toNat) (htop : s''.mallocEnd = s'.mallocEnd) :
    Effects sBrk s s'' := by
  refine ⟨fun e he => ?_, ?_⟩
  · rcases hw.log e he with he | ⟨h1, h2⟩
    · rw [hw.sys, htop]
      exact h.log e he
    · rw [hw.sys, htop]
      exact .inr (.inr ⟨h1, h2⟩)
  · rw [hw.sys, htop]
    exact h.sys

section Results

variable {s s' : TinyMalloc σ} {bs bs' : List Block} {others : List Chunk} {p : Addr} {n : ℕ}

theorem Handed.gives (h : Represents start s bs) (hh : Handed start s s' bs bs' p n) :
    Gives start s s' bs' (BlockHeap.chunks start.base bs) p n :=
  ⟨hh.represents, hh.chunks, fun _ hc => hh.kept.bytes h.row.ok hc⟩

/-- The block of a piece has room for the request. -/
theorem Represents.requestSize_le {c : Chunk} (h : Represents start s bs)
    (hc : c ∈ chunks start.base bs) :
    c.ptr.toNat + requestSize c.request ≤ s.mallocEnd.toNat + 8 := by
  obtain ⟨pre, size, post, rfl, hptr⟩ := exists_block_of_mem_chunks hc
  have hb := h.row.ok ⟨size, some c.request⟩ (by simp)
  have hroom : 16 ≤ size := hb.room
  have haligned : size % 8 = 0 := hb.aligned
  have hfits : c.request + 8 ≤ size := hb.fits c.request rfl
  have hbelow := h.below
  rw [h.top_toNat]
  simp only [total_append, total_cons] at hbelow ⊢
  rw [hptr, BitVec.toNat_ofNat, Nat.mod_eq_of_lt (by omega)]
  unfold requestSize
  omega

theorem Gives.mem (h : Gives start s s' bs' others p n) :
    (⟨p, n⟩ : Chunk) ∈ BlockHeap.chunks start.base bs' :=
  h.chunks.mem_iff.2 List.mem_cons_self

theorem Gives.ne_zero (h : Gives start s s' bs' others p n) : p ≠ 0#64 := by
  rintro rfl
  have hbounds := (h.represents.chunk_bounds h.mem).1
  exact absurd hbounds (Nat.not_le_of_gt (by show 0 < _; omega))

theorem Allocated.effects (h : Allocated start sBrk s s' bs bs' p (requestSize n) n) :
    Effects sBrk s s' := by
  have hmem := h.chunks.mem_iff.2 (List.mem_cons_self (a := (⟨p, n⟩ : Chunk)))
  have hle : p.toNat + requestSize n ≤ s'.mallocEnd.toNat + 8 := h.represents.requestSize_le hmem
  have hbelow := h.represents.below
  rw [← h.represents.top_toNat] at hbelow
  exact ⟨fun e he => (h.log e he).imp_right .inl, .inr ⟨p, _, h.sys, h.top, by omega⟩⟩

/-- The piece just handed out is not among the others. -/
theorem Gives.ptr_ne (h : Gives start s s' bs' others p n) {c : Chunk} (hc : c ∈ others) :
    c.ptr ≠ p := by
  intro heq
  have hsorted := chunks_sorted h.represents.row.ok h.represents.lt
  have hnodup : (BlockHeap.chunks start.base bs').Nodup := by
    refine hsorted.imp fun {c d} hlt heq => ?_
    rw [heq] at hlt
    omega
  have hnew := (List.nodup_cons.1 (h.chunks.nodup_iff.1 hnodup)).1
  have hsame := h.represents.chunk_eq h.mem (h.chunks.mem_iff.2 (List.mem_cons_of_mem _ hc)) heq
  exact hnew (hsame ▸ hc)

/-! ### `calloc` -/

/-- A piece that is written to the end after it has been handed out. -/
theorem Gives.write (h : Gives start s s' bs' others p n) {len : ℕ} (hlen : len ≤ n)
    (f : ℕ → Byte) :
    Gives start s { s' with mem := writeBytes s'.mem p len f } bs' others p n := by
  obtain ⟨hrep, hkept⟩ := h.represents.write h.mem hlen f
  refine ⟨hrep, h.chunks, fun c hc => ?_⟩
  exact (hkept c (h.chunks.mem_iff.2 (List.mem_cons_of_mem _ hc)) (h.ptr_ne hc)).trans (h.kept c hc)

theorem calloc_null {n elemSize : BitVec 64} {frame : Addr} {s1 : TinyMalloc σ}
    (h : malloc start sBrk frame (n * elemSize) s = some (0#64, s1)) :
    calloc start sBrk frame n elemSize s = some (0#64, s1) := by
  simp [calloc, h]

theorem calloc_filled {n elemSize : BitVec 64} {frame : Addr} {s1 : TinyMalloc σ} {m : Mem}
    (h : malloc start sBrk frame (n * elemSize) s = some (p, s1)) (hp : p ≠ 0#64)
    (hset : memset s1.mem p 0#32 (n * elemSize) = some m) :
    calloc start sBrk frame n elemSize s = some (p, { s1 with mem := m }) := by
  simp [calloc, h, hp, hset]

/-- **`calloc`** gives null and the same heap, or a piece filled with zeros. -/
theorem calloc_spec {n elemSize : BitVec 64} {frame : Addr} (h : Represents start s bs)
    (hsz : (n * elemSize).toNat + 16 ≤ 2 ^ 64)
    (hroom : s.Room frame (requestSize (n * elemSize).toNat)) :
    ∃ result, calloc start sBrk frame n elemSize s = some result ∧ (result = (0#64, s) ∨
      ∃ bs', Gives start s result.2 bs' (chunks start.base bs) result.1 (n * elemSize).toNat ∧
        Effects sBrk s result.2 ∧
        Chunk.bytes result.2.mem ⟨result.1, (n * elemSize).toNat⟩ =
          List.replicate (n * elemSize).toNat 0) := by
  obtain ⟨⟨p, s1⟩, hrun, hresult⟩ := @malloc_spec _ _ sBrk _ _ _ _ h hsz hroom
  rcases hresult with hnull | ⟨bs', halloc⟩
  · obtain ⟨rfl, rfl⟩ := Prod.mk.inj hnull
    exact ⟨_, calloc_null hrun, .inl rfl⟩
  · have hgives := halloc.toHanded.gives h
    have hbounds := hgives.represents.chunk_bounds hgives.mem
    have hbelow := hgives.represents.below
    rw [← hgives.represents.top_toNat] at hbelow
    dsimp only at hbounds
    have hset : memset s1.mem p 0#32 (n * elemSize) =
        some (writeBytes s1.mem p (n * elemSize).toNat fun _ => 0) := by
      have hmemset := @memset_zero s1.mem p.toNat (n * elemSize).toNat (by omega)
      rwa [ofNat_toNat, ofNat_toNat] at hmemset
    refine ⟨_, calloc_filled hrun hgives.ne_zero hset, .inr ⟨bs', hgives.write (le_refl _) _, ?_, ?_⟩⟩
    · exact halloc.effects.withMem _
    · unfold Chunk.bytes
      rw [readBytes_writeBytes_same _ _ _ (by omega), List.map_const', List.length_range]

/-! ### `realloc` -/

/-- What a piece starts with, in one memory and in another. -/
def SameBytes (m m' : Mem) (p p' : Addr) (n : ℕ) : Prop :=
  readBytes m' p' n = readBytes m p n

/-- A block handed out is cut in two: the first part for the request, the rest for a
caller who gives it back at once. -/
theorem cut_block {pre post : List Block} {size n r : ℕ} (n' : ℕ)
    (h : Represents start s (pre ++ ⟨size, some n⟩ :: post)) (hr : 16 ≤ r) (hr8 : r % 8 = 0)
    (hn : n' + 8 ≤ r) (hsize : r + 16 ≤ size) :
    let s' := (s.setSize (BitVec.ofNat 64 (start.base + total pre)) (BitVec.ofNat 64 r)).setSize
      (BitVec.ofNat 64 (start.base + total pre + r)) (BitVec.ofNat 64 (size - r))
    Represents start s' ((pre ++ [⟨r, some n'⟩]) ++ ⟨size - r, some 0⟩ :: post) ∧
      Kept s.mem s'.mem start.base pre ∧
      Agree s.mem s'.mem (start.base + total pre + 8) (start.base + total pre + r) ∧
      Kept s.mem s'.mem (start.base + total pre + size) post ∧
      Writes s s' s.mallocEnd.toNat := by
  intro s'
  obtain ⟨hpre, hok, hpost⟩ := row_used.1 h.row
  obtain ⟨hfront, hs, hrest⟩ := h.atUsed
  have hsize8 : size % 8 = 0 := hok.aligned
  have hbelow := h.below
  have htop := h.top_toNat
  simp only [total_append, total_cons] at hbelow htop
  set a := start.base + total pre with ha
  have hmem : s'.mem = writeLE64 (writeLE64 s.mem (BitVec.ofNat 64 a) (BitVec.ofNat 64 r))
      (BitVec.ofNat 64 (a + r)) (BitVec.ofNat 64 (size - r)) := rfl
  -- two headers are written, at the start of the block and at the cut
  have hagree : ∀ lo hi, hi ≤ 2 ^ 64 → (hi ≤ a ∨ a + 8 ≤ lo) → (hi ≤ a + r ∨ a + r + 8 ≤ lo) →
      Agree s.mem s'.mem lo hi := by
    intro lo hi hhi h1 h2
    rw [hmem]
    exact (agree_writeLE64 _ _ (by omega) hhi h1).store (by omega) hhi h2
  have hbefore := hagree start.base a (by omega) (.inl (le_refl _)) (.inl (by omega))
  have hbehind := hagree (a + size) (a + size + total post) (by omega) (.inr (by omega))
    (.inr (by omega))
  have hfirst : (⟨r, some n'⟩ : Block).Ok := by
    refine ⟨hr, hr8, fun k hk => ?_⟩
    obtain rfl := Option.some.inj hk
    exact hn
  have hlater : (⟨size - r, some 0⟩ : Block).Ok := by
    refine ⟨?_, ?_, fun k hk => ?_⟩
    · show 16 ≤ size - r
      omega
    · show (size - r) % 8 = 0
      omega
    · obtain rfl := Option.some.inj hk
      show 0 + 8 ≤ size - r
      omega
  have htotal : total ((pre ++ [⟨r, some n'⟩]) ++ ⟨size - r, some 0⟩ :: post) =
      total (pre ++ ⟨size, some n⟩ :: post) := by
    simp only [total_append, total_cons, total_nil]
    omega
  refine ⟨⟨?_, row_used.2 ⟨row_used.2 ⟨hpre, hfirst, nofun, List.isChain_nil⟩, hlater, hpost⟩,
    ?_, ?_⟩, hbefore.kept, ?_, hbehind.kept, ?_⟩
  · refine laid_append.2 ⟨_, laid_append.2 ⟨_, hfront.congr hpre.ok hbefore, ?_, rfl⟩, ?_, ?_⟩
    · rw [hmem, readLE64_writeLE64_disjoint _ _ (by omega) (by omega) (by omega),
        readLE64_writeLE64_same]
    · rw [total_append, total_cons, total_nil, Nat.add_zero, ← Nat.add_assoc, ← ha, hmem,
        readLE64_writeLE64_same]
    · rw [total_append, total_cons, total_nil, Nat.add_zero, ← Nat.add_assoc, ← ha,
        show a + r + (size - r) = a + size by omega]
      exact hrest.congr hpost.ok hbehind
  · rw [htotal]
    exact h.below
  · rw [htotal]
    exact h.top
  · exact hagree _ _ (by omega) (.inr (le_refl _)) (.inl (le_refl _))
  · rw [htop]
    exact ((Writes.refl s _).store _ (by omega) (by omega)).store _ (by omega) (by omega)

/-- The piece at the start of a block, in the order of the others. -/
theorem chunks_used (start : MallocStart) (pre post : List Block) (size n : ℕ) :
    (chunks start.base (pre ++ ⟨size, some n⟩ :: post)).Perm
      (⟨BitVec.ofNat 64 (start.base + total pre + 8), n⟩ ::
        (chunks start.base pre ++ chunks (start.base + total pre + size) post)) := by
  rw [chunks_append]
  exact List.perm_middle

section Free

variable {pre post : List Block} {size : ℕ}

theorem Freed.perm (hf : Freed start s s' pre size post bs') :
    (BlockHeap.chunks start.base (pre ++ ⟨size, some n⟩ :: post)).Perm
      (⟨BitVec.ofNat 64 (start.base + total pre + 8), n⟩ :: BlockHeap.chunks start.base bs') := by
  rw [hf.chunks]
  exact chunks_used start pre post size n

/-- Giving a piece back keeps the others. -/
theorem Freed.bytes (h : Represents start s (pre ++ ⟨size, some n⟩ :: post))
    (hf : Freed start s s' pre size post bs') {c : Chunk}
    (hc : c ∈ BlockHeap.chunks start.base bs') : c.bytes s'.mem = c.bytes s.mem := by
  obtain ⟨hpre, hok, hpost⟩ := row_used.1 h.row
  refine hf.kept.bytes (fun b hb => ?_) ?_
  · rcases List.mem_append.1 hb with hb | hb
    · exact hpre.ok b hb
    · rcases List.mem_cons.1 hb with rfl | hb
      · exact ⟨hok.room, hok.aligned, nofun⟩
      · exact hpost.ok b hb
  · rw [chunks_append]
    rw [hf.chunks] at hc
    exact hc

end Free

section Realloc

variable {pre post : List Block} {size : ℕ} {sz : BitVec 64} {frame : Addr}

/-- The piece that a call of `realloc` returns. -/
structure Moved (start : MallocStart) (sBrk : SBrk σ) (s s' : TinyMalloc σ)
    (others : List Chunk) (p p' : Addr) (n n' : ℕ) : Prop where
  gives : ∃ bs', Gives start s s' bs' others p' n'
  effects : Effects sBrk s s'
  bytes : SameBytes s.mem s'.mem p p' (min n n')

/-- The old piece is large enough, and not by much. -/
theorem moved_stay (h : Represents start s (pre ++ ⟨size, some n⟩ :: post)) {n' : ℕ}
    (hn : n' + 8 ≤ size) :
    Moved start sBrk s s (chunks start.base pre ++ chunks (start.base + total pre + size) post)
      (BitVec.ofNat 64 (start.base + total pre + 8))
      (BitVec.ofNat 64 (start.base + total pre + 8)) n n' :=
  ⟨⟨_, h.request hn, chunks_used start pre post size n', fun _ _ => rfl⟩, Effects.refl s, rfl⟩

/-- The old piece is cut. -/
theorem moved_cut (sBrk : SBrk σ) (h : Represents start s (pre ++ ⟨size, some n⟩ :: post)) {r n' : ℕ}
    (hr : 16 ≤ r) (hr8 : r % 8 = 0) (hn : n' + 8 ≤ r) (hsize : r + 16 ≤ size) :
    let s1 := (s.setSize (BitVec.ofNat 64 (start.base + total pre)) (BitVec.ofNat 64 r)).setSize
      (BitVec.ofNat 64 (start.base + total pre + r)) (BitVec.ofNat 64 (size - r))
    ∃ s2, free (BitVec.ofNat 64 (start.base + total pre + r + 8)) s1 = some s2 ∧
      Moved start sBrk s s2
        (chunks start.base pre ++ chunks (start.base + total pre + size) post)
        (BitVec.ofNat 64 (start.base + total pre + 8))
        (BitVec.ofNat 64 (start.base + total pre + 8)) n n' := by
  intro s1
  obtain ⟨hrep, hpre, hsame, hpost, hw⟩ := cut_block n' h hr hr8 hn hsize
  obtain ⟨hrowpre, -, hrowpost⟩ := row_used.1 h.row
  obtain ⟨s2, bs2, hrun, hfreed⟩ := free_spec hrep
  have hlt := h.lt
  simp only [total_append, total_cons] at hlt
  have htotal : start.base + total (pre ++ [⟨r, some n'⟩]) = start.base + total pre + r := by
    rw [total_append, total_cons, total_nil, Nat.add_zero, Nat.add_assoc]
  have hchunks : chunks start.base bs2 = chunks start.base pre ++
      ⟨BitVec.ofNat 64 (start.base + total pre + 8), n'⟩ ::
        chunks (start.base + total pre + size) post := by
    rw [hfreed.chunks, chunks_append, htotal,
      show start.base + total pre + r + (size - r) = start.base + total pre + size by omega]
    simp [chunks]
  rw [htotal] at hrun
  have hperm : (chunks start.base bs2).Perm (⟨BitVec.ofNat 64 (start.base + total pre + 8), n'⟩ ::
      (chunks start.base pre ++ chunks (start.base + total pre + size) post)) := by
    rw [hchunks]
    exact List.perm_middle
  refine ⟨s2, hrun, ⟨bs2, hfreed.represents, hperm, fun c hc => ?_⟩, ?_, ?_⟩
  · refine (hfreed.bytes hrep (hperm.mem_iff.2 (List.mem_cons_of_mem _ hc))).trans ?_
    rcases List.mem_append.1 hc with hc | hc
    · exact hpre.bytes hrowpre.ok hc
    · exact hpost.bytes hrowpost.ok hc
  · exact (Effects.of_writes hw rfl).after hfreed.writes hfreed.top
  · -- what is left of the piece, before and after the rest is given back
    have hlater := hfreed.bytes hrep (hperm.mem_iff.2 List.mem_cons_self)
    have hle : min n n' ≤ n' := min_le_right _ _
    unfold Chunk.bytes at hlater
    unfold SameBytes
    rw [← readBytes_take _ _ hle, hlater, readBytes_take _ _ hle]
    refine readBytes_congr fun i hi => ?_
    rw [← BitVec.ofNat_add]
    exact hsame _ (by omega) (by omega)

/-- The old piece is copied to a new one and given back. -/
theorem moved_copy (sBrk : SBrk σ) (h : Represents start s (pre ++ ⟨size, some n⟩ :: post))
    (hsz : sz.toNat + 16 ≤ 2 ^ 64) (hroom : s.Room frame (requestSize sz.toNat)) :
    let p := BitVec.ofNat 64 (start.base + total pre + 8)
    let others := chunks start.base pre ++ chunks (start.base + total pre + size) post
    malloc start sBrk frame sz s = some (0#64, s) ∨
      ∃ q s1 m s2, malloc start sBrk frame sz s = some (q, s1) ∧ q ≠ 0#64 ∧
        memcpy s1.mem q p (BitVec.ofNat 64 (min (size - 8) sz.toNat)) = some m ∧
        free p { s1 with mem := m } = some s2 ∧ Moved start sBrk s s2 others p q n sz.toNat := by
  intro p others
  obtain ⟨hpre, hok, hpost⟩ := row_used.1 h.row
  have hsize : 16 ≤ size := hok.room
  have hn : n + 8 ≤ size := hok.fits n rfl
  -- the whole block counts as asked for, so that all of it is still there after `malloc`
  have hwhole := h.request (show size - 8 + 8 ≤ size by omega)
  have hchunks := chunks_used start pre post size (size - 8)
  obtain ⟨⟨q, s1⟩, hrun, hresult⟩ := @malloc_spec _ _ sBrk _ _ _ _ hwhole hsz hroom
  rcases hresult with hnull | ⟨bs1, halloc⟩
  · exact .inl (hrun.trans (congrArg some hnull))
  refine .inr ⟨q, s1, ?_⟩
  have hgives := halloc.toHanded.gives hwhole
  have hold : (⟨p, size - 8⟩ : Chunk) ∈ chunks start.base bs1 :=
    hgives.chunks.mem_iff.2 (List.mem_cons_of_mem _ (hchunks.mem_iff.2 List.mem_cons_self))
  have hsame := hgives.kept _ (hchunks.mem_iff.2 List.mem_cons_self)
  have hne := hgives.ptr_ne (hchunks.mem_iff.2 List.mem_cons_self)
  have hapart := hgives.represents.apart hgives.mem hold hne
  have hbounds := hgives.represents.chunk_bounds hgives.mem
  have hbounds' := hgives.represents.chunk_bounds hold
  have hbelow := hgives.represents.below
  rw [← hgives.represents.top_toNat] at hbelow
  dsimp only at hapart hbounds hbounds' hsame
  set len := min (size - 8) sz.toNat with hlen
  have hle : len ≤ sz.toNat := min_le_right _ _
  have hle' : len ≤ size - 8 := min_le_left _ _
  have hcopy := @memcpy_disjoint s1.mem q.toNat p.toNat len (by omega) (by omega) (by omega)
    (by omega)
  rw [ofNat_toNat, ofNat_toNat] at hcopy
  have hgives2 := hgives.write hle fun i => s1.mem (BitVec.ofNat 64 (p.toNat + i))
  obtain ⟨pre1, size1, post1, hbs1, hptr⟩ := exists_block_of_mem_chunks hold
  subst hbs1
  obtain ⟨s2, bs2, hfree, hfreed⟩ := free_spec hgives2.represents
  rw [← hptr] at hfree
  have hperm : (chunks start.base bs2).Perm (⟨q, sz.toNat⟩ :: others) := by
    have h1 := hfreed.perm.symm.trans (hgives2.chunks.trans (hchunks.cons _))
    rw [← hptr] at h1
    exact (h1.trans (List.Perm.swap _ _ _)).cons_inv
  refine ⟨_, s2, hrun, hgives.ne_zero, hcopy, hfree, ⟨bs2, hfreed.represents, hperm, fun c hc => ?_⟩,
    (halloc.effects.withMem _).after hfreed.writes hfreed.top, ?_⟩
  · refine (hfreed.bytes hgives2.represents (hperm.mem_iff.2 (List.mem_cons_of_mem _ hc))).trans ?_
    exact hgives2.kept c (hchunks.mem_iff.2 (List.mem_cons_of_mem _ hc))
  · -- the new piece is kept by `free`, starts with the copy, and the copy was the old piece
    have hkept := hfreed.bytes hgives2.represents (hperm.mem_iff.2 List.mem_cons_self)
    have hmin : min n sz.toNat ≤ len := by omega
    unfold Chunk.bytes at hkept hsame
    dsimp only at hkept hsame
    have hnew := congrArg (List.take (min n sz.toNat)) hkept
    rw [readBytes_take _ _ (min_le_right _ _), readBytes_take _ _ (min_le_right _ _)] at hnew
    have hold' := congrArg (List.take (min n sz.toNat)) hsame
    rw [readBytes_take _ _ (by omega), readBytes_take _ _ (by omega)] at hold'
    unfold SameBytes
    rw [hnew, ← hold']
    refine readBytes_congr fun i hi => ?_
    rw [writeBytes_inside _ _ _ (by omega) (by omega), BitVec.ofNat_add, ofNat_toNat]

theorem realloc_null {p : Addr} (hp : p ≠ 0#64) (hsize : s.size (p - 8#64) < realSize sz)
    (hrun : malloc start sBrk frame sz s = some (0#64, s)) :
    realloc start sBrk frame p sz s = some (0#64, s) := by
  simp [realloc, hp, hsize, hrun]

theorem realloc_copy {p q : Addr} {s1 s2 : TinyMalloc σ} {m : Mem} (hp : p ≠ 0#64)
    (hsize : s.size (p - 8#64) < realSize sz) (hrun : malloc start sBrk frame sz s = some (q, s1))
    (hq : q ≠ 0#64)
    (hcopy : memcpy s1.mem q p (if s.size (p - 8#64) - 8#64 < sz then s.size (p - 8#64) - 8#64
      else sz) = some m)
    (hfree : free p { s1 with mem := m } = some s2) :
    realloc start sBrk frame p sz s = some (q, s2) := by
  simp [realloc, hp, hsize, hrun, hq, hcopy, hfree]

theorem realloc_cut {p : Addr} {s2 : TinyMalloc σ} (hp : p ≠ 0#64)
    (hsize : ¬ s.size (p - 8#64) < realSize sz)
    (hrest : sizeofEntry ≤ s.size (p - 8#64) - realSize sz)
    (hfree : free (p - 8#64 + realSize sz + 8#64) ((s.setSize (p - 8#64) (realSize sz)).setSize
      (p - 8#64 + realSize sz) (s.size (p - 8#64) - realSize sz)) = some s2) :
    realloc start sBrk frame p sz s = some (p, s2) := by
  simp [realloc, hp, hsize, hrest, hfree]

theorem realloc_stay {p : Addr} (hp : p ≠ 0#64) (hsize : ¬ s.size (p - 8#64) < realSize sz)
    (hrest : ¬ sizeofEntry ≤ s.size (p - 8#64) - realSize sz) :
    realloc start sBrk frame p sz s = some (p, s) := by
  simp [realloc, hp, hsize, hrest]

/-- **`realloc`** of a piece gives null and the same heap, or a piece that starts as the
old one did. -/
theorem realloc_spec (h : Represents start s (pre ++ ⟨size, some n⟩ :: post))
    (hsz : sz.toNat + 16 ≤ 2 ^ 64) (hroom : s.Room frame (requestSize sz.toNat)) :
    let p := BitVec.ofNat 64 (start.base + total pre + 8)
    ∃ result, realloc start sBrk frame p sz s = some result ∧ (result = (0#64, s) ∨
      Moved start sBrk s result.2
        (chunks start.base pre ++ chunks (start.base + total pre + size) post) p result.1 n
        sz.toNat) := by
  intro p
  have hpos := start.base_pos
  have hbelow := h.below
  simp only [total_append, total_cons] at hbelow
  obtain ⟨hr, hfit⟩ := requestSize_room sz.toNat
  have hr64 := requestSize_lt hsz
  have hsize : 16 ≤ size := (row_used.1 h.row).2.1.room
  have hp : p ≠ 0#64 := by
    intro hzero
    have := (ofNat_inj (x := start.base + total pre + 8) (y := 0) (by omega) (by omega)).1 hzero
    omega
  have hblock : p - 8#64 = BitVec.ofNat 64 (start.base + total pre) :=
    ofNat_sub_ofNat (y := 8) (by omega) (by omega)
  have hold : s.size (p - 8#64) = BitVec.ofNat 64 size := by
    rw [hblock]
    exact h.atUsed.2.1
  have hreal := realSize_eq hsz
  have hlt : s.size (p - 8#64) < realSize sz ↔ size < requestSize sz.toNat := by
    rw [hold, hreal, ofNat_lt_ofNat (by omega) hr64]
  by_cases hgrow : size < requestSize sz.toNat
  · -- the piece must be moved
    rcases moved_copy sBrk h hsz hroom with
      hnull | ⟨q, s1, m, s2, hrun, hq, hcopy, hfree, hmoved⟩
    · exact ⟨_, realloc_null hp (hlt.2 hgrow) hnull, .inl rfl⟩
    · have hlen : (if s.size (p - 8#64) - 8#64 < sz then s.size (p - 8#64) - 8#64 else sz) =
          BitVec.ofNat 64 (min (size - 8) sz.toNat) := by
        rw [hold, show BitVec.ofNat 64 size - 8#64 = BitVec.ofNat 64 (size - 8) from
          ofNat_sub_ofNat (by omega) (by omega)]
        by_cases hless : size - 8 < sz.toNat
        · rw [if_pos, min_eq_left hless.le]
          rw [← ofNat_toNat sz]
          exact (ofNat_lt_ofNat (by omega) sz.isLt).2 hless
        · rw [if_neg, min_eq_right (Nat.not_lt.1 hless), ofNat_toNat]
          rw [← ofNat_toNat sz]
          exact fun hcon => hless ((ofNat_lt_ofNat (by omega) sz.isLt).1 hcon)
      rw [← hlen] at hcopy
      exact ⟨_, realloc_copy hp (hlt.2 hgrow) hrun hq hcopy hfree, .inr hmoved⟩
  · have hle : ¬ s.size (p - 8#64) < realSize sz := fun hcon => hgrow (hlt.1 hcon)
    have hrest : s.size (p - 8#64) - realSize sz =
        BitVec.ofNat 64 (size - requestSize sz.toNat) := by
      rw [hold, hreal]
      exact ofNat_sub_ofNat (Nat.not_lt.1 hgrow) (by omega)
    have hcut : sizeofEntry ≤ s.size (p - 8#64) - realSize sz ↔ 16 ≤ size - requestSize sz.toNat := by
      rw [hrest, BitVec.le_def, BitVec.toNat_ofNat, Nat.mod_eq_of_lt (by omega)]
      rfl
    by_cases hlarge : 16 ≤ size - requestSize sz.toNat
    · obtain ⟨s2, hfree, hmoved⟩ := moved_cut sBrk h hr (requestSize_aligned _) hfit (by omega)
      refine ⟨_, realloc_cut hp hle (hcut.2 hlarge) ?_, .inr hmoved⟩
      rw [hrest, hblock, hreal, ← BitVec.ofNat_add,
        show BitVec.ofNat 64 (start.base + total pre + requestSize sz.toNat) + 8#64 =
          BitVec.ofNat 64 (start.base + total pre + requestSize sz.toNat + 8) from
          (BitVec.ofNat_add _ _).symm]
      exact hfree
    · exact ⟨_, realloc_stay hp hle fun hcon => hlarge (hcut.1 hcon), .inr (moved_stay h (by omega))⟩

end Realloc

end Results

end TinyMalloc

end KeystoneSdk
