/-
Runs of the allocator, from a program that has not allocated anything.

* `HeapRun` — calls and stores of the caller into the pieces it holds, in any order;
* `HeapState` — a run either has not set `__malloc_end` yet or is on a heap whose
  pieces are those held;
* `FreeChain`, `Tiles`, `HeapInvariant` — the invariant, read off memory: the free
  list, and how blocks cover the heap;
* **`heap_invariant`** — it holds in every run, and every valid call returns;
* **`calls_preserve`** — no call changes what the caller holds.
-/
import KeystoneSdk.HeapCalls

open ByteMemory BlockHeap

namespace KeystoneSdk

namespace TinyMalloc

variable {σ : Type}

/-- Runs of the allocator, with the pieces the caller holds.  `ok` is what is asked of
every call.  Between calls the caller stores into its own pieces, and anything may
happen outside the heap. -/
inductive HeapRun (start : MallocStart) (sBrk : SBrk σ) (first : TinyMalloc σ → Prop)
    (ok : TinyMalloc σ → List Chunk → Addr → HeapCall → Prop) : TinyMalloc σ → List Chunk → Prop
  | start {s : TinyMalloc σ} (h : first s) : HeapRun start sBrk first ok s []
  | call {s s' : TinyMalloc σ} {held : List Chunk} {frame p : Addr} {c : HeapCall}
      (h : HeapRun start sBrk first ok s held) (hok : ok s held frame c)
      (hrun : c.run start sBrk frame s = some (p, s')) :
      HeapRun start sBrk first ok s' (c.live p held)
  | store {s : TinyMalloc σ} {held : List Chunk} (m : Mem)
      (h : HeapRun start sBrk first ok s held)
      (hm : ∀ i, start.base ≤ i → i < s.mallocEnd.toNat → ¬ Owned held i →
        m (BitVec.ofNat 64 i) = s.mem (BitVec.ofNat 64 i)) :
      HeapRun start sBrk first ok { s with mem := m } held

/-- `__malloc_end` and the free list are null. -/
def Fresh (s : TinyMalloc σ) : Prop := s.mallocEnd = 0#64 ∧ s.freelist = 0#64

/-- The frame of a call is at least `MALLOC_MINIMUM_GAP` above the end of the heap, as
`malloc` sees it. -/
def FrameAbove (start : MallocStart) (s : TinyMalloc σ) (frame : Addr) : Prop :=
  (s.initEnd start).mallocEnd.toNat + 32 ≤ frame.toNat

/-- Valid use of the allocator: the first call is one of `malloc`. -/
structure ValidUse (start : MallocStart) (s : TinyMalloc σ) (held : List Chunk) (frame : Addr)
    (c : HeapCall) : Prop where
  valid : Valid start frame s held c
  frame : FrameAbove start s frame
  first : s.mallocEnd = 0#64 → ∃ sz, c = .malloc sz

/-! ### The invariant -/

/-- A free block, with the size in its header. -/
structure FreeBlock where
  addr : Addr
  size : BitVec 64

/-- The free list from the pointer `v` on. -/
def FreeChain (s : TinyMalloc σ) : Addr → List FreeBlock → Prop
  | v, [] => v = 0#64
  | v, b :: bs => v = b.addr ∧ v ≠ 0#64 ∧ s.size v = b.size ∧ FreeChain s (s.next v) bs

/-- Where a block starts, and its length. -/
structure Extent where
  addr : ℕ
  size : ℕ

/-- The blocks cover `[lo, hi)`, one after the other. -/
def Tiles : ℕ → ℕ → List Extent → Prop
  | lo, hi, [] => lo = hi
  | lo, hi, e :: es => e.addr = lo ∧ Tiles (lo + e.size) hi es

def FreeBlock.extent (b : FreeBlock) : Extent := ⟨b.addr.toNat, b.size.toNat⟩

/-- The block of a piece, with the size in its header. -/
def extentOf (s : TinyMalloc σ) (q : Chunk) : Extent :=
  ⟨(q.ptr - 8#64).toNat, (s.size (q.ptr - 8#64)).toNat⟩

/-- The invariant of the allocator. -/
structure HeapInvariant (start : MallocStart) (s : TinyMalloc σ) (held : List Chunk) : Prop where
  /-- The free list ascends, and no two free blocks are adjacent; with the blocks of
  the pieces held it tiles the heap. -/
  blocks : ∃ free tiles, FreeChain s s.freelist free ∧
    free.Pairwise (fun b d => b.addr.toNat + b.size.toNat < d.addr.toNat) ∧
    tiles.Perm (free.map FreeBlock.extent ++ held.map (extentOf s)) ∧
    Tiles start.base s.mallocEnd.toNat tiles ∧
    ∀ e ∈ tiles, e.size % 8 = 0 ∧ 16 ≤ e.size
  /-- Every piece has room for what was asked for. -/
  capacity : ∀ q ∈ held, q.request + 8 ≤ (extentOf s q).size

/-! ### A heap satisfies the invariant -/

/-- The free blocks of a row. -/
def freeBlocks : ℕ → List Block → List FreeBlock
  | _, [] => []
  | a, ⟨size, some _⟩ :: bs => freeBlocks (a + size) bs
  | a, ⟨size, none⟩ :: bs => ⟨BitVec.ofNat 64 a, BitVec.ofNat 64 size⟩ :: freeBlocks (a + size) bs

/-- All blocks of a row. -/
def extents : ℕ → List Block → List Extent
  | _, [] => []
  | a, b :: bs => ⟨a, b.size⟩ :: extents (a + b.size) bs

theorem tiles_extents (a : ℕ) (bs : List Block) : Tiles a (a + total bs) (extents a bs) := by
  induction bs generalizing a with
  | nil => rfl
  | cons b bs ih =>
    rw [total_cons, ← Nat.add_assoc]
    exact ⟨rfl, ih _⟩

theorem extents_ok {a : ℕ} {bs : List Block} (hok : ∀ b ∈ bs, b.Ok) :
    ∀ e ∈ extents a bs, e.size % 8 = 0 ∧ 16 ≤ e.size := by
  induction bs generalizing a with
  | nil => exact fun _ he => absurd he List.not_mem_nil
  | cons b bs ih =>
    intro e he
    rcases List.mem_cons.1 he with rfl | he
    · exact ⟨(hok b List.mem_cons_self).aligned, (hok b List.mem_cons_self).room⟩
    · exact ih (fun c hc => hok c (List.mem_cons_of_mem _ hc)) e he

/-- The free blocks of a row are not before it, and behind its start when its first
block is handed out. -/
theorem freeBlocks_addr {a : ℕ} {bs : List Block} (hok : ∀ b ∈ bs, b.Ok)
    (hend : a + total bs < 2 ^ 64) {d : FreeBlock} (hd : d ∈ freeBlocks a bs) :
    a ≤ d.addr.toNat ∧ (HeadUsed bs → a < d.addr.toNat) := by
  induction bs generalizing a with
  | nil => exact absurd hd List.not_mem_nil
  | cons b bs ih =>
    have hok' : ∀ c ∈ bs, c.Ok := fun c hc => hok c (List.mem_cons_of_mem _ hc)
    have hroom := (hok b List.mem_cons_self).room
    rw [total_cons, ← Nat.add_assoc] at hend
    have hrest : d ∈ freeBlocks (a + b.size) bs → a < d.addr.toNat := fun hd => by
      have := (ih hok' hend hd).1
      omega
    obtain ⟨size, use | n⟩ := b
    · rcases List.mem_cons.1 hd with rfl | hd
      · refine ⟨?_, fun hhead => absurd rfl (hhead _ rfl)⟩
        show a ≤ (BitVec.ofNat 64 a).toNat
        rw [BitVec.toNat_ofNat, Nat.mod_eq_of_lt (by omega)]
      · exact ⟨(hrest hd).le, fun _ => hrest hd⟩
    · exact ⟨(hrest hd).le, fun _ => hrest hd⟩

/-- The free blocks of a row ascend, and something is between any two. -/
theorem freeBlocks_sorted {a : ℕ} {bs : List Block} (hrow : Row bs) (hend : a + total bs < 2 ^ 64) :
    (freeBlocks a bs).Pairwise fun b d => b.addr.toNat + b.size.toNat < d.addr.toNat := by
  induction bs generalizing a with
  | nil => exact List.Pairwise.nil
  | cons b bs ih =>
    rw [total_cons, ← Nat.add_assoc] at hend
    obtain ⟨size, use | n⟩ := b
    · obtain ⟨-, hrest, hhead⟩ := row_free_cons.1 hrow
      refine List.pairwise_cons.2 ⟨fun d hd => ?_, ih hrest hend⟩
      have hlt := (freeBlocks_addr hrest.ok hend hd).2 hhead
      dsimp only at hend hlt ⊢
      rw [BitVec.toNat_ofNat, BitVec.toNat_ofNat, Nat.mod_eq_of_lt (by omega),
        Nat.mod_eq_of_lt (by omega)]
      exact hlt
    · exact ih (row_used_cons.1 hrow).2 hend

theorem freeChain_of_laid {s : TinyMalloc σ} {a : ℕ} {v : Addr} {bs : List Block}
    (h : Laid s.mem v a bs 0#64) (ha : 0 < a) (hend : a + total bs < 2 ^ 64) :
    FreeChain s v (freeBlocks a bs) := by
  induction bs generalizing a v with
  | nil => exact Eq.symm h
  | cons b bs ih =>
    rw [total_cons, ← Nat.add_assoc] at hend
    obtain ⟨size, use | n⟩ := b
    · obtain ⟨rfl, hs, hl⟩ := h
      refine ⟨rfl, ?_, hs, ?_⟩
      · intro hzero
        have := (ofNat_inj (x := a) (y := 0) (by omega) (by omega)).1 hzero
        omega
      · rw [next_ofNat]
        exact ih hl (by omega) hend
    · exact ih h.2 (Nat.lt_add_right _ ha) hend

/-- The blocks of a row are its free blocks and the blocks of its pieces. -/
theorem extents_perm {s : TinyMalloc σ} {a : ℕ} {v w : Addr} {bs : List Block}
    (h : Laid s.mem v a bs w) (hend : a + total bs < 2 ^ 64) (hok : ∀ b ∈ bs, b.Ok) :
    (extents a bs).Perm
      ((freeBlocks a bs).map FreeBlock.extent ++ (chunks a bs).map (extentOf s)) := by
  induction bs generalizing a v with
  | nil => exact List.Perm.nil
  | cons b bs ih =>
    have hok' : ∀ c ∈ bs, c.Ok := fun c hc => hok c (List.mem_cons_of_mem _ hc)
    have hroom := (hok b List.mem_cons_self).room
    rw [total_cons, ← Nat.add_assoc] at hend
    obtain ⟨size, use | n⟩ := b
    · have hext : FreeBlock.extent ⟨BitVec.ofNat 64 a, BitVec.ofNat 64 size⟩ = ⟨a, size⟩ := by
        dsimp only at hend
        unfold FreeBlock.extent
        rw [BitVec.toNat_ofNat, BitVec.toNat_ofNat, Nat.mod_eq_of_lt (by omega),
          Nat.mod_eq_of_lt (by omega)]
      have hrest := ih h.2.2 hend hok'
      rw [extents, freeBlocks, chunks, List.map_cons, hext]
      exact hrest.cons _
    · have hext : extentOf s ⟨BitVec.ofNat 64 (a + 8), n⟩ = ⟨a, size⟩ := by
        dsimp only at hend hroom
        have hblock : BitVec.ofNat 64 (a + 8) - 8#64 = BitVec.ofNat 64 a :=
          ofNat_sub_ofNat (y := 8) (by omega) (by omega)
        have hs : s.size (BitVec.ofNat 64 a) = BitVec.ofNat 64 size := h.1
        unfold extentOf
        rw [hblock, hs, BitVec.toNat_ofNat, BitVec.toNat_ofNat, Nat.mod_eq_of_lt (by omega),
          Nat.mod_eq_of_lt (by omega)]
      have hrest := ih h.2 hend hok'
      rw [extents, freeBlocks, chunks, List.map_cons, hext]
      exact (hrest.cons _).trans List.perm_middle.symm

theorem invariant_of_row {start : MallocStart} {s : TinyMalloc σ} {bs : List Block}
    {held : List Chunk} (h : Represents start s bs) (hl : (chunks start.base bs).Perm held) :
    HeapInvariant start s held := by
  have hpos := start.base_pos
  have hlt := h.lt
  refine ⟨⟨freeBlocks start.base bs, extents start.base bs, ?_, ?_, ?_, ?_, ?_⟩, fun q hq => ?_⟩
  · exact freeChain_of_laid h.laid hpos hlt
  · exact freeBlocks_sorted h.row hlt
  · exact (extents_perm h.laid hlt h.row.ok).trans ((hl.map _).append_left _)
  · rw [h.top_toNat]
    exact tiles_extents _ _
  · exact extents_ok h.row.ok
  · obtain ⟨pre, size, post, rfl, hptr⟩ := exists_block_of_mem_chunks (hl.mem_iff.2 hq)
    have hfits : q.request + 8 ≤ size := (row_used.1 h.row).2.1.fits q.request rfl
    simp only [total_append, total_cons] at hlt
    have hblock : q.ptr - 8#64 = BitVec.ofNat 64 (start.base + total pre) := by
      rw [hptr]
      exact ofNat_sub_ofNat (y := 8) (by omega) (by omega)
    have hsize : (extentOf s q).size = size := by
      unfold extentOf
      dsimp only
      rw [hblock, h.atUsed.2.1, BitVec.toNat_ofNat, Nat.mod_eq_of_lt (by omega)]
    rw [hsize]
    exact hfits

/-! ### Runs -/

/-- Nothing has been allocated yet, or the pieces held are those of a heap. -/
def HeapState (start : MallocStart) (s : TinyMalloc σ) (held : List Chunk) : Prop :=
  (Fresh s ∧ held = []) ∨ ∃ bs, Represents start s bs ∧ (chunks start.base bs).Perm held

section Runs

variable {start : MallocStart} {sBrk : SBrk σ} {first : TinyMalloc σ → Prop}
  {ok : TinyMalloc σ → List Chunk → Addr → HeapCall → Prop} {s : TinyMalloc σ} {bs : List Block}
  {held : List Chunk} {frame : Addr} {c : HeapCall}

/-- Stores of the caller, and what happens outside the heap, leave the heap alone. -/
theorem Represents.store {m : Mem} (h : Represents start s bs)
    (hl : (chunks start.base bs).Perm held)
    (hm : ∀ i, start.base ≤ i → i < s.mallocEnd.toNat → ¬ Owned held i →
      m (BitVec.ofNat 64 i) = s.mem (BitVec.ofNat 64 i)) :
    Represents start { s with mem := m } bs := by
  refine h.withMem (headers_of_owned h.row.ok h.lt fun i hi1 hi2 hout => hm i hi1 ?_ ?_)
  · rw [h.top_toNat]
    exact hi2
  · rintro ⟨q, hq, hqi⟩
    exact hout ⟨q, hl.mem_iff.2 hq, hqi⟩

theorem HeapState.store {m : Mem} (h : HeapState start s held)
    (hm : ∀ i, start.base ≤ i → i < s.mallocEnd.toNat → ¬ Owned held i →
      m (BitVec.ofNat 64 i) = s.mem (BitVec.ofNat 64 i)) :
    HeapState start { s with mem := m } held := by
  rcases h with hfresh | ⟨bs, hrep, hl⟩
  · exact .inl hfresh
  · exact .inr ⟨bs, hrep.store hl hm, hl⟩

/-- The first lines of `malloc` make an empty heap. -/
theorem Fresh.represents (h : Fresh s) (hframe : FrameAbove start s frame) :
    Represents start (s.initEnd start) [] ∧
      (s.initEnd start).mallocEnd.toNat + 32 ≤ frame.toNat := by
  have hlt := frame.isLt
  have hend : s.initEnd start = { s with mallocEnd := start.addr } := if_pos h.1
  have habove : (s.initEnd start).mallocEnd.toNat + 32 ≤ frame.toNat := hframe
  refine ⟨?_, hframe⟩
  rw [hend] at habove ⊢
  have hbase : start.base + 32 ≤ frame.toNat := habove
  exact represents_nil h.2 rfl (by omega)

/-- `malloc` does not tell a fresh state from an empty heap. -/
theorem malloc_initEnd (sz : BitVec 64) :
    malloc start sBrk frame sz (s.initEnd start) = malloc start sBrk frame sz s := by
  have hidem : (s.initEnd start).initEnd start = s.initEnd start := by
    by_cases hzero : s.mallocEnd = 0#64
    · rw [show s.initEnd start = { s with mallocEnd := start.addr } from if_pos hzero]
      exact if_neg start.nonnull
    · rw [show s.initEnd start = s from if_neg hzero]
      exact if_neg hzero
  unfold malloc
  rw [hidem]

/-- What a valid call does to the state of a run. -/
structure Step (start : MallocStart) (sBrk : SBrk σ) (frame : Addr) (c : HeapCall)
    (held : List Chunk) (s : TinyMalloc σ) (p : Addr) (s' : TinyMalloc σ) : Prop where
  state : HeapState start s' (c.live p held)
  preserves : Preserves c p s s' held
  aligned : ∀ align sz, c.aligned = some (align, sz) → align.toNat ∣ p.toNat

/-- One call of a run. -/
theorem step_of_validUse (sBrk : SBrk σ) (h : HeapState start s held)
    (hok : ValidUse start s held frame c) :
    ∃ p s', c.run start sBrk frame s = some (p, s') ∧ Step start sBrk frame c held s p s' := by
  obtain ⟨hv, hframe, hfirst⟩ := hok
  rcases h with ⟨hfresh, rfl⟩ | ⟨bs, hrep, hl⟩
  · -- the first call
    obtain ⟨sz, rfl⟩ := hfirst hfresh.1
    obtain ⟨hrep, habove⟩ := hfresh.represents hframe
    obtain ⟨p, s', hrun, hout⟩ := call_spec (c := .malloc sz) sBrk hrep List.Perm.nil hv habove
    refine ⟨p, s', ?_, .inr hout.heap, ⟨nofun, nofun, nofun⟩, nofun⟩
    rw [← hrun]
    exact (malloc_initEnd sz).symm
  · have habove : s.mallocEnd.toNat + 32 ≤ frame.toNat := by
      have hframe' : (s.initEnd start).mallocEnd.toNat + 32 ≤ frame.toNat := hframe
      rwa [hrep.initEnd] at hframe'
    obtain ⟨p, s', hrun, hout⟩ := call_spec sBrk hrep hl hv habove
    exact ⟨p, s', hrun, .inr hout.heap, hout.preserves, hout.aligned⟩

/-- Every state of a run of valid use. -/
theorem HeapRun.state (h : HeapRun start sBrk Fresh (ValidUse start) s held) :
    HeapState start s held := by
  induction h with
  | start h => exact .inl ⟨h, rfl⟩
  | call _ hok hrun ih =>
    obtain ⟨p, s', hrun', hstep⟩ := step_of_validUse sBrk ih hok
    obtain ⟨rfl, rfl⟩ := Prod.mk.inj (Option.some.inj (hrun.symm.trans hrun'))
    exact hstep.state
  | store m _ hm ih => exact ih.store hm

end Runs

/-! ### A small run -/

/-- An `s_brk` whose state is the break: it returns the break and raises it. -/
def raiseBreak : SBrk (BitVec 64) := fun cur k => (cur, cur + k)

/-- A heap that starts at 0x1000. -/
def smallStart : MallocStart where
  addr := 0x1000#64
  nonnull := by decide
  aligned := by decide

/-- A program that has not allocated anything; its break is at 0x2000. -/
def smallHeap : TinyMalloc (BitVec 64) where
  mem := fun _ => 0
  freelist := 0#64
  mallocEnd := 0#64
  sys := 0x2000#64
  headers := []

/-- The same program after `malloc(24)`. -/
def grownHeap : TinyMalloc (BitVec 64) where
  mem := writeLE64 smallHeap.mem 0x1000#64 32#64
  freelist := 0#64
  mallocEnd := 0x1020#64
  sys := 0x2000#64
  headers := [(0x1000#64, 0x2000#64)]

theorem smallHeap_malloc :
    (HeapCall.malloc 24#64).run smallStart raiseBreak 0x8000#64 smallHeap =
      some (0x1008#64, grownHeap) := by
  show malloc smallStart raiseBreak 0x8000#64 24#64 smallHeap = _
  unfold malloc
  rw [show pointerRounds = 18446744073709551615 + 1 from rfl, mallocLoop,
    if_pos (show (initEnd smallStart smallHeap).deref Fle.freelist = 0#64 from rfl)]
  rfl

theorem smallHeap_validUse : ValidUse smallStart smallHeap [] 0x8000#64 (.malloc 24#64) where
  valid := by
    show _ < _
    decide
  frame := by
    show _ ≤ _
    decide
  first := fun _ => ⟨_, rfl⟩

/-- One piece of 24 bytes at 0x1008 is held after it. -/
theorem grownHeap_run :
    HeapRun smallStart raiseBreak Fresh (ValidUse smallStart) grownHeap [⟨0x1008#64, 24⟩] :=
  .call (.start ⟨rfl, rfl⟩) smallHeap_validUse smallHeap_malloc

/-- The gap in front of an aligned block is less than the alignment and a header. -/
theorem gapAt_lt (a : ℕ) {k : ℕ} (hk : k < 64) : gapAt (BitVec.ofNat 64 (2 ^ k)) a < 2 ^ k + 16 := by
  have h8 : BitVec.ofNat 64 a + 8#64 = BitVec.ofNat 64 (a + 8) := (BitVec.ofNat_add _ _).symm
  have h24 : BitVec.ofNat 64 a + sizeofEntry + 8#64 = BitVec.ofNat 64 (a + 24) := by
    show BitVec.ofNat 64 a + BitVec.ofNat 64 16 + BitVec.ofNat 64 8 = _
    rw [← BitVec.ofNat_add, ← BitVec.ofNat_add]
  have hpow : 2 ^ k ≤ 2 ^ 63 := Nat.pow_le_pow_right (by omega) (by omega)
  have hm := (mAlign_ofNat (a + 8) hk).1
  have hm' := (mAlign_ofNat (a + 24) hk).1
  unfold gapAt beforeSize
  rw [h8, h24]
  dsimp only
  split
  · rw [BitVec.toNat_add, Nat.mod_eq_of_lt]
    · show 16 + _ < _
      omega
    · show 16 + _ < _
      omega
  · omega

/-- Small sums do not wrap. -/
theorem unwrapped_of_small {σ : Type} {s : TinyMalloc σ} {frame : Addr} {r k : ℕ} (hk : k < 64)
    (hr : r + 2 ^ k + 16 ≤ 2 ^ 64) (a : ℕ) (bs : List Block) :
    Unwrapped s frame (BitVec.ofNat 64 (2 ^ k)) r a bs := by
  induction bs generalizing a with
  | nil =>
    have := gapAt_lt a hk
    exact fun _ => by omega
  | cons b bs ih =>
    have := gapAt_lt a hk
    obtain ⟨size, use | n⟩ := b
    · exact ⟨by omega, fun _ _ => ih _⟩
    · exact ih _

/-- The same program after `memalign(32, 24)`, which puts a free block of 24 bytes in front of
the aligned one. -/
def alignedHeap : TinyMalloc (BitVec 64) where
  mem := writeLE64 (writeLE64 (writeLE64 (writeLE64 grownHeap.mem 0x1020#64 56#64) 0x1028#64 0#64)
    0x1020#64 24#64) 0x1038#64 32#64
  freelist := 0x1020#64
  mallocEnd := 0x1058#64
  sys := 0x2000#64
  headers := [(0x1038#64, 0x2000#64), (0x1020#64, 0x2000#64), (0x1028#64, 0x2000#64),
    (0x1020#64, 0x2000#64), (0x1000#64, 0x2000#64)]

theorem grownHeap_aligns :
    (HeapCall.memalign 32#64 24#64).run smallStart raiseBreak 0x8000#64 grownHeap =
      some (0x1040#64, alignedHeap) := by
  show memalign 0x8000#64 32#64 24#64 grownHeap = _
  unfold memalign
  rw [show pointerRounds = 18446744073709551615 + 1 from rfl, memalignLoop,
    if_neg (by decide), if_pos (show grownHeap.deref Fle.freelist = 0#64 from rfl)]
  rfl

/-- The same program after `free` of the first piece, whose block the free block in front of
the other one is joined to. -/
def freedHeap : TinyMalloc (BitVec 64) where
  mem := writeLE64 (writeLE64 alignedHeap.mem 0x1000#64 56#64) 0x1008#64 0#64
  freelist := 0x1000#64
  mallocEnd := 0x1058#64
  sys := 0x2000#64
  headers := (0x1008#64, 0x2000#64) :: (0x1000#64, 0x2000#64) :: alignedHeap.headers

theorem alignedHeap_free :
    (HeapCall.free 0x1008#64).run smallStart raiseBreak 0x8000#64 alignedHeap =
      some (0#64, freedHeap) := by
  have hfirst : alignedHeap.size 0x1000#64 = 32#64 := by decide
  have hfree : alignedHeap.size 0x1020#64 = 24#64 := by decide
  have hloop : freeLoop 0x1000#64 pointerRounds .freelist alignedHeap = some freedHeap := by
    have hnext : (alignedHeap.setSize 0x1000#64 (32#64 + 24#64)).next 0x1020#64 = 0#64 := by decide
    rw [show pointerRounds = 18446744073709551615 + 1 from rfl, freeLoop,
      show alignedHeap.deref Fle.freelist = 0x1020#64 from rfl, if_neg (by decide)]
    dsimp only
    rw [hfree, hfirst, if_neg (by decide), if_pos (by decide), hnext]
    rfl
  show ((if (0x1008#64 : Addr) = 0#64 then some alignedHeap
    else freeLoop 0x1000#64 pointerRounds .freelist alignedHeap).map fun s => (0#64, s)) = _
  rw [if_neg (by decide), hloop]
  rfl

theorem grownHeap_validUse : ValidUse smallStart grownHeap [⟨0x1008#64, 24⟩] 0x8000#64
    (.memalign 32#64 24#64) where
  valid := by
    refine ⟨?_, fun _ bs _ => ?_⟩
    · show _ < _
      decide
    · exact @unwrapped_of_small _ _ _ _ 5 (by decide) (by decide) _ bs
  frame := by
    show _ ≤ _
    decide
  first := fun hend => absurd hend (by decide)

theorem alignedHeap_validUse : ValidUse smallStart alignedHeap
    [⟨0x1040#64, 24⟩, ⟨0x1008#64, 24⟩] 0x8000#64 (.free 0x1008#64) where
  valid := Or.inr ⟨⟨0x1008#64, 24⟩, by simp, rfl⟩
  frame := by
    show _ ≤ _
    decide
  first := fun hend => absurd hend (by decide)

/-- The aligned piece is held after it, and a block of 56 bytes is free. -/
theorem freedHeap_run :
    HeapRun smallStart raiseBreak Fresh (ValidUse smallStart) freedHeap [⟨0x1040#64, 24⟩] :=
  .call (.call grownHeap_run grownHeap_validUse grownHeap_aligns) alignedHeap_validUse
    alignedHeap_free

/-- **The invariant of the allocator holds in every run of valid use** once `malloc` has
set `__malloc_end`, and every valid call returns, `memalign` with an aligned pointer. -/
theorem heap_invariant (start : MallocStart) (sBrk : SBrk σ) (s : TinyMalloc σ) (held : List Chunk)
    (h : HeapRun start sBrk Fresh (ValidUse start) s held) :
    (s.mallocEnd ≠ 0#64 → HeapInvariant start s held) ∧
      ∀ frame c, ValidUse start s held frame c →
        ∃ p s', c.run start sBrk frame s = some (p, s') ∧
          ∀ align sz, c.aligned = some (align, sz) → align.toNat ∣ p.toNat := by
  refine ⟨fun hend => ?_, fun frame c hok => ?_⟩
  · rcases h.state with ⟨hfresh, -⟩ | ⟨bs, hrep, hl⟩
    · exact absurd hfresh.1 hend
    · exact invariant_of_row hrep hl
  · obtain ⟨p, s', hrun, hstep⟩ := step_of_validUse sBrk h.state hok
    exact ⟨p, s', hrun, hstep.aligned⟩

theorem heap_invariant_small :
    HeapInvariant smallStart freedHeap [⟨0x1040#64, 24⟩] ∧ freedHeap.freelist = 0x1000#64 ∧
      ∃ p s', (HeapCall.malloc 8#64).run smallStart raiseBreak 0x8000#64 freedHeap =
        some (p, s') := by
  obtain ⟨hinvariant, hreturns⟩ := heap_invariant smallStart raiseBreak freedHeap _ freedHeap_run
  refine ⟨hinvariant (by decide), rfl, ?_⟩
  obtain ⟨p, s', hrun, _⟩ := hreturns 0x8000#64 (.malloc 8#64) (by
    refine ⟨?_, ?_, fun _ => ⟨_, rfl⟩⟩
    · show _ < _
      decide
    · show _ ≤ _
      decide)
  exact ⟨p, s', hrun⟩

/-- **No valid call changes what the caller holds**, in any run. -/
theorem calls_preserve (start : MallocStart) (sBrk : SBrk σ) (s : TinyMalloc σ) (held : List Chunk)
    (h : HeapRun start sBrk Fresh (ValidUse start) s held) (frame : Addr) (c : HeapCall)
    (hok : ValidUse start s held frame c) (p : Addr) (s' : TinyMalloc σ)
    (hrun : c.run start sBrk frame s = some (p, s')) : Preserves c p s s' held := by
  obtain ⟨q, s'', hrun', hstep⟩ := step_of_validUse sBrk h.state hok
  obtain ⟨rfl, rfl⟩ := Prod.mk.inj (Option.some.inj (hrun.symm.trans hrun'))
  exact hstep.preserves

theorem calls_preserve_small :
    ∃ s', (HeapCall.malloc 8#64).run smallStart raiseBreak 0x8000#64 grownHeap =
        some (0x1028#64, s') ∧
      Preserves (.malloc 8#64) 0x1028#64 grownHeap s' [⟨0x1008#64, 24⟩] := by
  have hrun : (HeapCall.malloc 8#64).run smallStart raiseBreak 0x8000#64 grownHeap =
      some (0x1028#64, { grownHeap with
        mem := writeLE64 grownHeap.mem 0x1020#64 16#64
        mallocEnd := 0x1030#64
        headers := [(0x1020#64, 0x2000#64), (0x1000#64, 0x2000#64)] }) := by
    show malloc smallStart raiseBreak 0x8000#64 8#64 grownHeap = _
    unfold malloc
    rw [show pointerRounds = 18446744073709551615 + 1 from rfl, mallocLoop,
      if_pos (show (initEnd smallStart grownHeap).deref Fle.freelist = 0#64 from rfl)]
    rfl
  refine ⟨_, hrun, calls_preserve smallStart raiseBreak grownHeap _ grownHeap_run 0x8000#64 _
    ⟨?_, ?_, ?_⟩ _ _ hrun⟩
  · show _ < _
    decide
  · show _ ≤ _
    decide
  · exact fun _ => ⟨_, rfl⟩

end TinyMalloc

end KeystoneSdk
