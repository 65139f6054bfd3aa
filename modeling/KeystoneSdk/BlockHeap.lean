/-
Heaps made of consecutive blocks, with the free ones on a list through memory.

* `Block`, `total` — a block, free or handed out, and the length of a row of
  them: a row laid out from an address tiles its range by construction;
* `Laid` — a row in memory: every block starts with its size, and every free
  one has, after it, the pointer to the next free one;
* `Agree`, `Laid.congr` — a row depends on the bytes it covers only;
* `lastFree`, `Laid.relink` — the link out of a row, and what a store to it does;
* `Kept` — the contents of the blocks handed out are as they were;
* `chunks` — the blocks handed out, as their owner sees them;
* `Headers`, `Owned` — a store of an owner to its own piece leaves the row alone.

Nothing here is about a particular allocator.  Addresses of blocks are natural
numbers, and every row is assumed to end at or below `2 ^ 64`.
-/
import KeystoneSdk.ByteMemory

open ByteMemory

namespace BlockHeap

/-- A block of a heap: its length with the header, and the request it was
handed out for, if it was. -/
structure Block where
  size : ℕ
  use : Option ℕ
  deriving DecidableEq, Repr

/-- The length of a row of blocks. -/
def total (bs : List Block) : ℕ := (bs.map Block.size).sum

/-- A block has room for its header and link, keeps everything aligned, and
holds what was asked for after the word with its size. -/
structure Block.Ok (b : Block) : Prop where
  room : 16 ≤ b.size
  aligned : b.size % 8 = 0
  fits : ∀ n, b.use = some n → n + 8 ≤ b.size

/-- Not both blocks are free. -/
def Apart (b c : Block) : Prop := b.use ≠ none ∨ c.use ≠ none

/-- A row of blocks that may stand in a heap. -/
structure Row (bs : List Block) : Prop where
  ok : ∀ b ∈ bs, b.Ok
  apart : bs.IsChain Apart

@[simp] theorem total_nil : total [] = 0 := rfl

@[simp] theorem total_cons (b : Block) (bs : List Block) : total (b :: bs) = b.size + total bs := by
  simp [total]

@[simp] theorem total_append (bs cs : List Block) : total (bs ++ cs) = total bs + total cs := by
  simp [total]

theorem total_aligned {bs : List Block} (h : ∀ b ∈ bs, b.Ok) : total bs % 8 = 0 := by
  induction bs with
  | nil => rfl
  | cons b bs ih =>
    have hb := (h b List.mem_cons_self).aligned
    have hbs := ih fun c hc => h c (List.mem_cons_of_mem _ hc)
    rw [total_cons]
    omega

theorem total_pos {bs : List Block} (h : ∀ b ∈ bs, b.Ok) (hne : bs ≠ []) : 16 ≤ total bs := by
  cases bs with
  | nil => exact absurd rfl hne
  | cons b bs =>
    have hb := (h b List.mem_cons_self).room
    rw [total_cons]
    omega

/-- The row does not end with a free block. -/
def LastUsed (bs : List Block) : Prop := ∀ b ∈ bs.getLast?, b.use ≠ none

/-- The row does not start with a free block. -/
def HeadUsed (bs : List Block) : Prop := ∀ b ∈ bs.head?, b.use ≠ none

@[simp] theorem lastUsed_nil : LastUsed [] := by simp [LastUsed]

@[simp] theorem headUsed_nil : HeadUsed [] := by simp [HeadUsed]

@[simp] theorem lastUsed_append_used (bs : List Block) (size n : ℕ) :
    LastUsed (bs ++ [⟨size, some n⟩]) := by
  simp [LastUsed]

@[simp] theorem headUsed_cons_used (bs : List Block) (size n : ℕ) :
    HeadUsed (⟨size, some n⟩ :: bs) := by
  simp [HeadUsed]

theorem row_append {bs cs : List Block} :
    Row (bs ++ cs) ↔ Row bs ∧ Row cs ∧ ∀ b ∈ bs.getLast?, ∀ c ∈ cs.head?, Apart b c := by
  constructor
  · rintro ⟨hok, hapart⟩
    obtain ⟨h1, h2, h3⟩ := List.isChain_append.1 hapart
    exact ⟨⟨fun b hb => hok b (List.mem_append_left _ hb), h1⟩,
      ⟨fun c hc => hok c (List.mem_append_right _ hc), h2⟩, h3⟩
  · rintro ⟨h1, h2, h3⟩
    refine ⟨fun b hb => ?_, List.isChain_append.2 ⟨h1.apart, h2.apart, h3⟩⟩
    exact (List.mem_append.1 hb).elim (h1.ok b) (h2.ok b)

theorem row_cons {b : Block} {bs : List Block} :
    Row (b :: bs) ↔ b.Ok ∧ Row bs ∧ ∀ c ∈ bs.head?, Apart b c := by
  constructor
  · rintro ⟨hok, hapart⟩
    obtain ⟨h1, h2⟩ := List.isChain_cons.1 hapart
    exact ⟨hok b List.mem_cons_self, ⟨fun c hc => hok c (List.mem_cons_of_mem _ hc), h2⟩, h1⟩
  · rintro ⟨hb, hbs, happ⟩
    refine ⟨fun c hc => ?_, List.isChain_cons.2 ⟨happ, hbs.apart⟩⟩
    rcases List.mem_cons.1 hc with rfl | hc
    · exact hb
    · exact hbs.ok c hc

/-- A block handed out may stand anywhere. -/
theorem row_used {bs cs : List Block} {size n : ℕ} :
    Row (bs ++ ⟨size, some n⟩ :: cs) ↔ Row bs ∧ (⟨size, some n⟩ : Block).Ok ∧ Row cs := by
  have hne : (⟨size, some n⟩ : Block).use ≠ none := Option.some_ne_none n
  rw [row_append, row_cons]
  constructor
  · rintro ⟨h1, ⟨h2, h3, -⟩, -⟩
    exact ⟨h1, h2, h3⟩
  · rintro ⟨h1, h2, h3⟩
    refine ⟨h1, ⟨h2, h3, fun c _ => .inl hne⟩, fun b _ c hc => .inr ?_⟩
    obtain rfl := Option.some.inj hc
    exact hne

/-- A free block stands between blocks handed out, or at the ends. -/
theorem row_free {bs cs : List Block} {size : ℕ} :
    Row (bs ++ ⟨size, none⟩ :: cs) ↔
      Row bs ∧ (⟨size, none⟩ : Block).Ok ∧ Row cs ∧ LastUsed bs ∧ HeadUsed cs := by
  rw [row_append, row_cons]
  constructor
  · rintro ⟨h1, ⟨h2, h3, h4⟩, h5⟩
    exact ⟨h1, h2, h3, fun b hb => (h5 b hb _ rfl).resolve_right fun h => h rfl,
      fun c hc => (h4 c hc).resolve_left fun h => h rfl⟩
  · rintro ⟨h1, h2, h3, h4, h5⟩
    exact ⟨h1, ⟨h2, h3, fun c hc => .inr (h5 c hc)⟩, fun b hb _ _ => .inl (h4 b hb)⟩

theorem row_used_cons {cs : List Block} {size n : ℕ} :
    Row (⟨size, some n⟩ :: cs) ↔ (⟨size, some n⟩ : Block).Ok ∧ Row cs := by
  refine row_cons.trans ⟨fun ⟨h1, h2, _⟩ => ⟨h1, h2⟩, fun ⟨h1, h2⟩ => ⟨h1, h2, fun c _ => ?_⟩⟩
  exact .inl (Option.some_ne_none n)

theorem row_free_cons {cs : List Block} {size : ℕ} :
    Row (⟨size, none⟩ :: cs) ↔ (⟨size, none⟩ : Block).Ok ∧ Row cs ∧ HeadUsed cs := by
  refine row_cons.trans ⟨fun ⟨h1, h2, h3⟩ => ⟨h1, h2, fun c hc => ?_⟩, fun ⟨h1, h2, h3⟩ =>
    ⟨h1, h2, fun c hc => .inr (h3 c hc)⟩⟩
  exact (h3 c hc).resolve_left fun h => h rfl

/-! ### Memories that agree on a range -/

/-- The bytes of `[lo, hi)` are the same in both memories. -/
def Agree (m m' : Mem) (lo hi : ℕ) : Prop :=
  ∀ i, lo ≤ i → i < hi → m' (BitVec.ofNat 64 i) = m (BitVec.ofNat 64 i)

theorem Agree.refl (m : Mem) (lo hi : ℕ) : Agree m m lo hi := fun _ _ _ => rfl

theorem Agree.trans {m m' m'' : Mem} {lo hi : ℕ} (h : Agree m m' lo hi) (h' : Agree m' m'' lo hi) :
    Agree m m'' lo hi :=
  fun i hlo hhi => (h' i hlo hhi).trans (h i hlo hhi)

theorem Agree.mono {m m' : Mem} {lo hi lo' hi' : ℕ} (h : Agree m m' lo hi) (hlo : lo ≤ lo')
    (hhi : hi' ≤ hi) : Agree m m' lo' hi' :=
  fun i hi1 hi2 => h i (hlo.trans hi1) (hi2.trans_le hhi)

theorem Agree.read {m m' : Mem} {lo hi x : ℕ} (h : Agree m m' lo hi) (hlo : lo ≤ x)
    (hhi : x + 8 ≤ hi) : readLE64 m' (BitVec.ofNat 64 x) = readLE64 m (BitVec.ofNat 64 x) :=
  readLE64_congr fun i hi => by
    rw [← BitVec.ofNat_add]
    exact h _ (by omega) (by omega)

/-- A block store leaves the ranges before and after it alone. -/
theorem agree_writeBytes (m : Mem) {a n lo hi : ℕ} (f : ℕ → Byte) (ha : a + n ≤ 2 ^ 64)
    (hhi : hi ≤ 2 ^ 64) (h : hi ≤ a ∨ a + n ≤ lo) :
    Agree m (writeBytes m (BitVec.ofNat 64 a) n f) lo hi := by
  intro i hi1 hi2
  rw [writeBytes_ofNat m f ha (by omega), if_neg (by omega)]

theorem agree_writeLE64 (m : Mem) {a lo hi : ℕ} (v : BitVec 64) (ha : a + 8 ≤ 2 ^ 64)
    (hhi : hi ≤ 2 ^ 64) (h : hi ≤ a ∨ a + 8 ≤ lo) :
    Agree m (writeLE64 m (BitVec.ofNat 64 a) v) lo hi :=
  agree_writeBytes m (byteOf v) ha hhi h

theorem Agree.store {m m' : Mem} {a lo hi : ℕ} {v : BitVec 64} (h : Agree m m' lo hi)
    (ha : a + 8 ≤ 2 ^ 64) (hhi : hi ≤ 2 ^ 64) (hout : hi ≤ a ∨ a + 8 ≤ lo) :
    Agree m (writeLE64 m' (BitVec.ofNat 64 a) v) lo hi :=
  h.trans (agree_writeLE64 m' v ha hhi hout)

theorem readLE64_writeLE64_disjoint (m : Mem) {a x : ℕ} (v : BitVec 64) (ha : a + 8 ≤ 2 ^ 64)
    (hx : x + 8 ≤ 2 ^ 64) (h : x + 8 ≤ a ∨ a + 8 ≤ x) :
    readLE64 (writeLE64 m (BitVec.ofNat 64 a) v) (BitVec.ofNat 64 x) =
      readLE64 m (BitVec.ofNat 64 x) :=
  readLE64_writeBytes_disjoint m (byteOf v) ha hx h

theorem ofNat_inj {x y : ℕ} (hx : x < 2 ^ 64) (hy : y < 2 ^ 64) :
    BitVec.ofNat 64 x = BitVec.ofNat 64 y ↔ x = y := by
  constructor
  · intro h
    have htoNat := congrArg BitVec.toNat h
    rwa [BitVec.toNat_ofNat, BitVec.toNat_ofNat, Nat.mod_eq_of_lt hx, Nat.mod_eq_of_lt hy] at htoNat
  · rintro rfl
    rfl

/-! ### Rows in memory -/

/-- The row `bs` in memory from address `a` on, when `v` is the pointer that
leads into it and `w` the one that leads out of it. -/
def Laid (m : Mem) : Addr → ℕ → List Block → Addr → Prop
  | v, _, [], w => w = v
  | v, a, ⟨size, some _⟩ :: bs, w =>
    readLE64 m (BitVec.ofNat 64 a) = BitVec.ofNat 64 size ∧ Laid m v (a + size) bs w
  | v, a, ⟨size, none⟩ :: bs, w =>
    v = BitVec.ofNat 64 a ∧ readLE64 m (BitVec.ofNat 64 a) = BitVec.ofNat 64 size ∧
      Laid m (readLE64 m (BitVec.ofNat 64 (a + 8))) (a + size) bs w

theorem laid_append {m : Mem} {v w : Addr} {a : ℕ} {bs cs : List Block} :
    Laid m v a (bs ++ cs) w ↔ ∃ u, Laid m v a bs u ∧ Laid m u (a + total bs) cs w := by
  induction bs generalizing v a with
  | nil => simp [Laid]
  | cons b bs ih =>
    obtain ⟨size, use | n⟩ := b
    · simp only [List.cons_append, Laid, ih, total_cons, Nat.add_assoc]
      tauto
    · simp only [List.cons_append, Laid, ih, total_cons, Nat.add_assoc]
      tauto

theorem Laid.congr {m m' : Mem} {v w : Addr} {a : ℕ} {bs : List Block} (h : Laid m v a bs w)
    (hok : ∀ b ∈ bs, b.Ok) (hagree : Agree m m' a (a + total bs)) : Laid m' v a bs w := by
  induction bs generalizing v a with
  | nil => exact h
  | cons b bs ih =>
    have hroom := (hok b List.mem_cons_self).room
    rw [total_cons] at hagree
    have hrest : Agree m m' (a + b.size) (a + b.size + total bs) :=
      hagree.mono (by omega) (by omega)
    have hsize := hagree.read (le_refl a) (by omega)
    have hnext := hagree.read (x := a + 8) (by omega) (by omega)
    have hok' : ∀ c ∈ bs, c.Ok := fun c hc => hok c (List.mem_cons_of_mem _ hc)
    obtain ⟨size, use | n⟩ := b
    · obtain ⟨hv, hs, hl⟩ := h
      refine ⟨hv, hsize.trans hs, ?_⟩
      rw [hnext]
      exact ih hl hok' hrest
    · exact ⟨hsize.trans h.1, ih h.2 hok' hrest⟩

/-- The pointer into the rest of a heap: null when nothing there is free,
otherwise the address of the first free block there. -/
theorem Laid.pointer {m : Mem} {v : Addr} {a : ℕ} {bs : List Block} (h : Laid m v a bs 0#64) :
    (v = 0#64 ∧ ∀ b ∈ bs, b.use ≠ none) ∨
      ∃ used size rest, bs = used ++ ⟨size, none⟩ :: rest ∧ (∀ b ∈ used, b.use ≠ none) ∧
        v = BitVec.ofNat 64 (a + total used) ∧ readLE64 m v = BitVec.ofNat 64 size := by
  induction bs generalizing a with
  | nil => exact .inl ⟨Eq.symm h, fun _ hb => absurd hb List.not_mem_nil⟩
  | cons b bs ih =>
    obtain ⟨size, use | n⟩ := b
    · obtain ⟨hv, hs, -⟩ := h
      refine .inr ⟨[], size, bs, rfl, fun _ hb => absurd hb List.not_mem_nil, hv, ?_⟩
      rw [hv]
      exact hs
    · have hcons : ∀ {us : List Block}, (∀ b ∈ us, b.use ≠ none) →
          ∀ b ∈ (⟨size, some n⟩ : Block) :: us, b.use ≠ none := by
        intro us hus b hb
        rcases List.mem_cons.1 hb with rfl | hb
        · exact Option.some_ne_none n
        · exact hus b hb
      rcases ih h.2 with ⟨hv, hnone⟩ | ⟨used, sz, rest, rfl, hused, hv, hs⟩
      · exact .inl ⟨hv, hcons hnone⟩
      · refine .inr ⟨⟨size, some n⟩ :: used, sz, rest, rfl, hcons hused, ?_, hs⟩
        rw [hv, total_cons, Nat.add_assoc]

/-! ### The link out of a row -/

/-- The address of the last free block of a row. -/
def lastFree : ℕ → List Block → Option ℕ
  | _, [] => none
  | a, ⟨size, some _⟩ :: bs => lastFree (a + size) bs
  | a, ⟨size, none⟩ :: bs => (lastFree (a + size) bs).or (some a)

theorem lastFree_live (a : ℕ) (bs : List Block) (size n : ℕ) :
    lastFree a (bs ++ [⟨size, some n⟩]) = lastFree a bs := by
  induction bs generalizing a with
  | nil => rfl
  | cons b bs ih =>
    obtain ⟨s, use | k⟩ := b
    · simp only [List.cons_append, lastFree, ih]
    · simp only [List.cons_append, lastFree, ih]

theorem lastFree_free (a : ℕ) (bs : List Block) (size : ℕ) :
    lastFree a (bs ++ [⟨size, none⟩]) = some (a + total bs) := by
  induction bs generalizing a with
  | nil => simp [lastFree]
  | cons b bs ih =>
    obtain ⟨s, use | k⟩ := b
    · simp only [List.cons_append, lastFree, ih, total_cons, Option.some_or, Nat.add_assoc]
    · simp only [List.cons_append, lastFree, ih, total_cons, Nat.add_assoc]

/-- The last free block lies inside its row. -/
theorem lastFree_bounds {a p : ℕ} {bs : List Block} (h : lastFree a bs = some p)
    (hok : ∀ b ∈ bs, b.Ok) : a ≤ p ∧ p + 16 ≤ a + total bs := by
  induction bs generalizing a with
  | nil => simp [lastFree] at h
  | cons b bs ih =>
    obtain ⟨size, use⟩ := b
    have hroom : 16 ≤ size := (hok _ List.mem_cons_self).room
    have ih' := fun h => ih (a := a + size) h fun c hc => hok c (List.mem_cons_of_mem _ hc)
    simp only [total_cons]
    rcases use with _ | n
    · rw [lastFree, Option.or_eq_some_iff] at h
      rcases h with h | ⟨-, h⟩
      · have := ih' h
        omega
      · obtain rfl := Option.some.inj h
        omega
    · have := ih' h
      omega

/-- A row without a free block passes every pointer on. -/
theorem Laid.through {m : Mem} {v w : Addr} {a : ℕ} {bs : List Block} (h : Laid m v a bs w)
    (hlast : lastFree a bs = none) : w = v ∧ ∀ x, Laid m x a bs x := by
  induction bs generalizing a with
  | nil => exact ⟨h, fun _ => rfl⟩
  | cons b bs ih =>
    obtain ⟨size, use | n⟩ := b
    · simp [lastFree] at hlast
    · obtain ⟨hw, hx⟩ := ih h.2 hlast
      exact ⟨hw, fun x => ⟨h.1, hx x⟩⟩

/-- The pointer out of a row is the link of its last free block, and storing
another one there changes nothing else of the row. -/
theorem Laid.relink {m : Mem} {v w : Addr} {a p : ℕ} {bs : List Block} (h : Laid m v a bs w)
    (hlast : lastFree a bs = some p) (hok : ∀ b ∈ bs, b.Ok) (hend : a + total bs ≤ 2 ^ 64) :
    w = readLE64 m (BitVec.ofNat 64 (p + 8)) ∧
      ∀ x, Laid (writeLE64 m (BitVec.ofNat 64 (p + 8)) x) v a bs x := by
  induction bs generalizing v a with
  | nil => simp [lastFree] at hlast
  | cons b bs ih =>
    have hbounds := lastFree_bounds hlast hok
    obtain ⟨size, use⟩ := b
    have hroom : 16 ≤ size := (hok _ List.mem_cons_self).room
    have hok' : ∀ c ∈ bs, c.Ok := fun c hc => hok c (List.mem_cons_of_mem _ hc)
    simp only [total_cons] at hend hbounds
    rcases use with _ | n
    · obtain ⟨hv, hs, hl⟩ := h
      cases hrest : lastFree (a + size) bs with
      | none =>
        -- the block itself is the last free one
        rw [lastFree, hrest, Option.none_or] at hlast
        obtain rfl := Option.some.inj hlast
        obtain ⟨hw, hx⟩ := hl.through hrest
        refine ⟨hw, fun x => ⟨hv, ?_, ?_⟩⟩
        · rw [readLE64_writeLE64_disjoint m x (by omega) (by omega) (by omega), hs]
        · rw [readLE64_writeLE64_same]
          exact (hx x).congr hok' (agree_writeLE64 m x (by omega) (by omega) (by omega))
      | some q =>
        rw [lastFree, hrest, Option.some_or] at hlast
        obtain rfl := Option.some.inj hlast
        have hq := lastFree_bounds hrest hok'
        obtain ⟨hw, hx⟩ := ih hl hrest hok' (by omega)
        refine ⟨hw, fun x => ⟨hv, ?_, ?_⟩⟩
        · rw [readLE64_writeLE64_disjoint m x (by omega) (by omega) (by omega), hs]
        · rw [readLE64_writeLE64_disjoint m x (by omega) (by omega) (by omega)]
          exact hx x
    · obtain ⟨hs, hl⟩ := h
      have hq := @lastFree_bounds (a + size) _ bs hlast hok'
      obtain ⟨hw, hx⟩ := ih hl hlast hok' (by omega)
      refine ⟨hw, fun x => ⟨?_, hx x⟩⟩
      rw [readLE64_writeLE64_disjoint m x (by omega) (by omega) (by omega), hs]

/-! ### What blocks hold -/

/-- The bytes of the blocks handed out, their sizes apart, are the same in both
memories. -/
def Kept (m m' : Mem) : ℕ → List Block → Prop
  | _, [] => True
  | a, b :: bs => (b.use ≠ none → Agree m m' (a + 8) (a + b.size)) ∧ Kept m m' (a + b.size) bs

theorem kept_append {m m' : Mem} {a : ℕ} {bs cs : List Block} :
    Kept m m' a (bs ++ cs) ↔ Kept m m' a bs ∧ Kept m m' (a + total bs) cs := by
  induction bs generalizing a with
  | nil => simp [Kept]
  | cons b bs ih => simp only [List.cons_append, Kept, ih, total_cons, Nat.add_assoc, and_assoc]

theorem Agree.kept {m m' : Mem} {a : ℕ} {bs : List Block} (h : Agree m m' a (a + total bs)) :
    Kept m m' a bs := by
  induction bs generalizing a with
  | nil => trivial
  | cons b bs ih =>
    rw [total_cons] at h
    exact ⟨fun _ => h.mono (by omega) (by omega), ih (h.mono (by omega) (by omega))⟩

theorem Kept.trans {m m' m'' : Mem} {a : ℕ} {bs : List Block} (h : Kept m m' a bs)
    (h' : Kept m' m'' a bs) : Kept m m'' a bs := by
  induction bs generalizing a with
  | nil => trivial
  | cons b bs ih => exact ⟨fun hb => (h.1 hb).trans (h'.1 hb), ih h.2 h'.2⟩

/-- Free blocks hold nothing. -/
theorem kept_free {m m' : Mem} {a : ℕ} {bs : List Block} (h : ∀ b ∈ bs, b.use = none) :
    Kept m m' a bs := by
  induction bs generalizing a with
  | nil => trivial
  | cons b bs ih =>
    exact ⟨fun hb => absurd (h b List.mem_cons_self) hb,
      ih fun c hc => h c (List.mem_cons_of_mem _ hc)⟩

/-- A store to the link of the last free block keeps every block handed out. -/
theorem kept_relink {m : Mem} {a p : ℕ} {bs : List Block} (hlast : lastFree a bs = some p)
    (hok : ∀ b ∈ bs, b.Ok) (hend : a + total bs ≤ 2 ^ 64) (x : Addr) :
    Kept m (writeLE64 m (BitVec.ofNat 64 (p + 8)) x) a bs := by
  induction bs generalizing a with
  | nil => trivial
  | cons b bs ih =>
    obtain ⟨size, use⟩ := b
    have hroom : 16 ≤ size := (hok _ List.mem_cons_self).room
    have hok' : ∀ c ∈ bs, c.Ok := fun c hc => hok c (List.mem_cons_of_mem _ hc)
    simp only [total_cons] at hend
    rcases use with _ | n
    · refine ⟨fun h => absurd rfl h, ?_⟩
      show Kept m _ (a + size) bs
      cases hrest : lastFree (a + size) bs with
      | none =>
        rw [lastFree, hrest, Option.none_or] at hlast
        obtain rfl := Option.some.inj hlast
        exact (agree_writeLE64 m x (by omega) (by omega) (by omega)).kept
      | some q =>
        rw [lastFree, hrest, Option.some_or] at hlast
        obtain rfl := Option.some.inj hlast
        exact ih hrest hok' (by omega)
    · have hq := @lastFree_bounds (a + size) _ bs hlast hok'
      show (_ → Agree m _ (a + 8) (a + size)) ∧ Kept m _ (a + size) bs
      exact ⟨fun _ => agree_writeLE64 m x (by omega) (by omega) (by omega),
        ih hlast hok' (by omega)⟩

/-! ### What owners see -/

/-- A piece of memory handed out: where it starts and how much was asked for. -/
structure Chunk where
  ptr : Addr
  request : ℕ
  deriving DecidableEq, Repr

/-- The pieces of a row that are handed out. -/
def chunks : ℕ → List Block → List Chunk
  | _, [] => []
  | a, ⟨size, some n⟩ :: bs => ⟨BitVec.ofNat 64 (a + 8), n⟩ :: chunks (a + size) bs
  | a, ⟨size, none⟩ :: bs => chunks (a + size) bs

theorem chunks_append (a : ℕ) (bs cs : List Block) :
    chunks a (bs ++ cs) = chunks a bs ++ chunks (a + total bs) cs := by
  induction bs generalizing a with
  | nil => simp [chunks]
  | cons b bs ih =>
    obtain ⟨size, use | n⟩ := b
    · simp only [List.cons_append, chunks, ih, total_cons, Nat.add_assoc]
    · simp only [List.cons_append, chunks, ih, total_cons, Nat.add_assoc]

theorem chunks_free {a : ℕ} {bs : List Block} (h : ∀ b ∈ bs, b.use = none) : chunks a bs = [] := by
  induction bs generalizing a with
  | nil => rfl
  | cons b bs ih =>
    obtain ⟨size, use | n⟩ := b
    · exact ih fun c hc => h c (List.mem_cons_of_mem _ hc)
    · exact absurd (h _ List.mem_cons_self) (Option.some_ne_none n)

/-- A piece handed out belongs to a block of the row. -/
theorem exists_block_of_mem_chunks {a : ℕ} {bs : List Block} {c : Chunk} (h : c ∈ chunks a bs) :
    ∃ pre size post, bs = pre ++ ⟨size, some c.request⟩ :: post ∧
      c.ptr = BitVec.ofNat 64 (a + total pre + 8) := by
  induction bs generalizing a with
  | nil => exact absurd h List.not_mem_nil
  | cons b bs ih =>
    have hrest : c ∈ chunks (a + b.size) bs → ∃ pre size post,
        b :: bs = pre ++ ⟨size, some c.request⟩ :: post ∧
          c.ptr = BitVec.ofNat 64 (a + total pre + 8) := by
      intro hc
      obtain ⟨pre, size, post, rfl, hptr⟩ := ih hc
      exact ⟨b :: pre, size, post, rfl, by rw [hptr, total_cons, Nat.add_assoc a]⟩
    obtain ⟨size, use | n⟩ := b
    · exact hrest h
    · rcases List.mem_cons.1 h with rfl | h
      · exact ⟨[], size, bs, rfl, by simp⟩
      · exact hrest h

/-- The bytes of a piece of memory. -/
def Chunk.bytes (m : Mem) (c : Chunk) : List Byte := readBytes m c.ptr c.request

theorem Kept.bytes {m m' : Mem} {a : ℕ} {bs : List Block} {c : Chunk} (h : Kept m m' a bs)
    (hok : ∀ b ∈ bs, b.Ok) (hc : c ∈ chunks a bs) : c.bytes m' = c.bytes m := by
  obtain ⟨pre, size, post, rfl, hptr⟩ := exists_block_of_mem_chunks hc
  have hfits := (hok ⟨size, some c.request⟩ (by simp)).fits c.request rfl
  have hagree := (kept_append.1 h).2.1 (Option.some_ne_none _)
  refine readBytes_congr fun i hi => ?_
  rw [hptr, ← BitVec.ofNat_add]
  exact hagree _ (by omega) (by dsimp only at hfits ⊢; omega)

/-- The pieces of a row lie inside it. -/
theorem chunk_inside {a : ℕ} {bs : List Block} {c : Chunk} (h : c ∈ chunks a bs)
    (hok : ∀ b ∈ bs, b.Ok) (hend : a + total bs < 2 ^ 64) :
    a + 8 ≤ c.ptr.toNat ∧ c.ptr.toNat + c.request ≤ a + total bs := by
  obtain ⟨pre, size, post, rfl, hptr⟩ := exists_block_of_mem_chunks h
  have hb := hok ⟨size, some c.request⟩ (by simp)
  have hroom : 16 ≤ size := hb.room
  have hfits : c.request + 8 ≤ size := hb.fits c.request rfl
  simp only [total_append, total_cons] at hend ⊢
  rw [hptr, BitVec.toNat_ofNat, Nat.mod_eq_of_lt (by omega)]
  omega

/-- The pieces of a row stand in the order of their addresses, and a header is
between any two. -/
theorem chunks_sorted {a : ℕ} {bs : List Block} (hok : ∀ b ∈ bs, b.Ok)
    (hend : a + total bs < 2 ^ 64) :
    (chunks a bs).Pairwise fun c d => c.ptr.toNat + c.request + 8 ≤ d.ptr.toNat := by
  induction bs generalizing a with
  | nil => exact List.Pairwise.nil
  | cons b bs ih =>
    have hok' : ∀ c ∈ bs, c.Ok := fun c hc => hok c (List.mem_cons_of_mem _ hc)
    rw [total_cons, ← Nat.add_assoc] at hend
    obtain ⟨size, use | n⟩ := b
    · exact ih hok' hend
    · have hroom : 16 ≤ size := (hok _ List.mem_cons_self).room
      have hfits : n + 8 ≤ size := (hok _ List.mem_cons_self).fits n rfl
      dsimp only at hend
      refine List.pairwise_cons.2 ⟨fun d hd => ?_, ih hok' hend⟩
      have hd := (chunk_inside hd hok' hend).1
      show (BitVec.ofNat 64 (a + 8)).toNat + n + 8 ≤ d.ptr.toNat
      rw [BitVec.toNat_ofNat, Nat.mod_eq_of_lt (by omega)]
      omega

/-! ### Stores of owners -/

/-- Both memories have the same words at the start of every block: its size and,
when it is free, its link. -/
def Headers (m m' : Mem) : ℕ → List Block → Prop
  | _, [] => True
  | a, ⟨size, some _⟩ :: bs => Agree m m' a (a + 8) ∧ Headers m m' (a + size) bs
  | a, ⟨size, none⟩ :: bs => Agree m m' a (a + 16) ∧ Headers m m' (a + size) bs

theorem Laid.headers {m m' : Mem} {v w : Addr} {a : ℕ} {bs : List Block} (h : Laid m v a bs w)
    (hsame : Headers m m' a bs) : Laid m' v a bs w := by
  induction bs generalizing v a with
  | nil => exact h
  | cons b bs ih =>
    obtain ⟨size, use | n⟩ := b
    · obtain ⟨hv, hs, hl⟩ := h
      obtain ⟨hhead, hrest⟩ := hsame
      refine ⟨hv, (hhead.read (le_refl a) (by omega)).trans hs, ?_⟩
      rw [hhead.read (by omega) (by omega)]
      exact ih hl hrest
    · obtain ⟨hhead, hrest⟩ := hsame
      exact ⟨(hhead.read (le_refl a) (by omega)).trans h.1, ih h.2 hrest⟩

/-- Address `i` belongs to the owner of one of the pieces. -/
def Owned (cs : List Chunk) (i : ℕ) : Prop :=
  ∃ c ∈ cs, c.ptr.toNat ≤ i ∧ i < c.ptr.toNat + c.request

/-- Stores of owners leave the headers alone. -/
theorem headers_of_owned {m m' : Mem} {a : ℕ} {bs : List Block} (hok : ∀ b ∈ bs, b.Ok)
    (hend : a + total bs < 2 ^ 64)
    (h : ∀ i, a ≤ i → i < a + total bs → ¬ Owned (chunks a bs) i →
      m' (BitVec.ofNat 64 i) = m (BitVec.ofNat 64 i)) : Headers m m' a bs := by
  -- on the row: a piece lies inside its block and behind its header
  induction bs generalizing a with
  | nil => trivial
  | cons b bs ih =>
    have hok' : ∀ c ∈ bs, c.Ok := fun c hc => hok c (List.mem_cons_of_mem _ hc)
    rw [total_cons, ← Nat.add_assoc] at hend h
    obtain ⟨size, use | n⟩ := b
    · have hroom : 16 ≤ size := (hok _ List.mem_cons_self).room
      dsimp only at hend h
      refine ⟨fun i hi1 hi2 => h i hi1 (by omega) ?_, ih hok' hend fun i hi1 hi2 hout =>
        h i (by omega) hi2 hout⟩
      rintro ⟨c, hc, hci, -⟩
      have hc := (chunk_inside (show c ∈ chunks (a + size) bs from hc) hok' hend).1
      omega
    · have hroom : 16 ≤ size := (hok _ List.mem_cons_self).room
      have hfits : n + 8 ≤ size := (hok _ List.mem_cons_self).fits n rfl
      dsimp only at hend h
      have hptr : (BitVec.ofNat 64 (a + 8)).toNat = a + 8 := by
        rw [BitVec.toNat_ofNat, Nat.mod_eq_of_lt (by omega)]
      refine ⟨fun i hi1 hi2 => h i hi1 (by omega) ?_, ih hok' hend fun i hi1 hi2 hout =>
        h i (by omega) hi2 ?_⟩
      · rintro ⟨c, hc, hci, -⟩
        rcases List.mem_cons.1 hc with rfl | hc
        · rw [hptr] at hci
          omega
        · have hc := (chunk_inside hc hok' hend).1
          omega
      · rintro ⟨c, hc, hci, hci'⟩
        rcases List.mem_cons.1 hc with rfl | hc
        · rw [hptr] at hci'
          dsimp only at hci'
          omega
        · exact hout ⟨c, hc, hci, hci'⟩

end BlockHeap
