/-
A memory that records what is read and written.

* `Touched`, `TouchM` — a memory with the blocks read and written so far, and
  the computations on it: `loadWord`, `loadInt`, `storeWord`, `storeBytes`, `copyBytes`;
* `TouchesOnly` — the blocks that a computation may read and write;
* `Span` — a region of memory, which may end at or wrap around the top of the
  address space;
* `Span.covers_iff` — a block lies in a region iff its offset and length fit;
* `EqOutside` — two memories that differ in some regions at most.
-/
import KeystoneSdk.ByteMemory

open ByteMemory

namespace AccessLog

/-- A memory, and the blocks read from it and written to it, as address and
number of bytes. -/
structure Touched where
  mem : Mem
  reads : List (Addr × ℕ)
  writes : List (Addr × ℕ)

abbrev TouchM := StateM Touched

/-- Read a little-endian word. -/
def loadWord (a : Addr) : TouchM (BitVec 64) := do
  modify fun s => { s with reads := s.reads ++ [(a, 8)] }
  return readLE64 (← get).mem a

/-- Read a little-endian 32-bit word. -/
def loadInt (a : Addr) : TouchM (BitVec 32) := do
  modify fun s => { s with reads := s.reads ++ [(a, 4)] }
  return readLE32 (← get).mem a

/-- Store `n` bytes from outside the memory. -/
def storeBytes (a : Addr) (n : ℕ) (f : ℕ → Byte) : TouchM Unit :=
  modify fun s => { s with mem := writeBytes s.mem a n f, writes := s.writes ++ [(a, n)] }

/-- Store a little-endian word. -/
def storeWord (a : Addr) (v : BitVec 64) : TouchM Unit := storeBytes a 8 (byteOf v)

/-- `memcpy` of a block that does not overlap its destination. -/
def copyBytes (dst src : Addr) (n : ℕ) : TouchM Unit := do
  modify fun s => { s with reads := s.reads ++ [(src, n)] }
  let m := (← get).mem
  storeBytes dst n fun i => m (src + BitVec.ofNat 64 i)

theorem run_pure {α : Type} (x : α) (s : Touched) : (pure x : TouchM α).run s = (x, s) := rfl

theorem run_bind {α β : Type} (x : TouchM α) (f : α → TouchM β) (s : Touched) :
    (x >>= f).run s = (f (x.run s).1).run (x.run s).2 := rfl

theorem run_bind_of {α β : Type} {x : TouchM α} {s s' : Touched} {a : α} (h : x.run s = (a, s'))
    (f : α → TouchM β) : (x >>= f).run s = (f a).run s' := by
  rw [run_bind, h]

theorem run_loadWord (a : Addr) (s : Touched) :
    (loadWord a).run s = (readLE64 s.mem a, { s with reads := s.reads ++ [(a, 8)] }) := rfl

theorem run_loadInt (a : Addr) (s : Touched) :
    (loadInt a).run s = (readLE32 s.mem a, { s with reads := s.reads ++ [(a, 4)] }) := rfl

theorem run_storeBytes (a : Addr) (n : ℕ) (f : ℕ → Byte) (s : Touched) :
    (storeBytes a n f).run s =
      ((), { s with mem := writeBytes s.mem a n f, writes := s.writes ++ [(a, n)] }) := rfl

theorem run_storeWord (a : Addr) (v : BitVec 64) (s : Touched) :
    (storeWord a v).run s =
      ((), { s with mem := writeLE64 s.mem a v, writes := s.writes ++ [(a, 8)] }) := rfl

theorem run_copyBytes (dst src : Addr) (n : ℕ) (s : Touched) :
    (copyBytes dst src n).run s =
      ((), { mem := writeBytes s.mem dst n fun i => s.mem (src + BitVec.ofNat 64 i)
             reads := s.reads ++ [(src, n)]
             writes := s.writes ++ [(dst, n)] }) := rfl

/-! ### The blocks of a computation -/

/-- Every block that is read or written satisfies `P`. -/
def TouchesOnly (P : Addr × ℕ → Prop) {α : Type} (x : TouchM α) : Prop :=
  ∀ s, ∀ b ∈ (x.run s).2.reads ++ (x.run s).2.writes, b ∈ s.reads ++ s.writes ∨ P b

section TouchesOnly

variable {P : Addr × ℕ → Prop}

theorem touchesOnly_pure {α : Type} (x : α) : TouchesOnly P (pure x : TouchM α) :=
  fun _ _ hb => Or.inl hb

theorem TouchesOnly.bind {α β : Type} {x : TouchM α} {f : α → TouchM β} (hx : TouchesOnly P x)
    (hf : ∀ a, TouchesOnly P (f a)) : TouchesOnly P (x >>= f) := by
  intro s b hb
  rcases hf _ _ b hb with hb | hP
  · exact hx s b hb
  · exact Or.inr hP

theorem touchesOnly_loadWord {a : Addr} (h : P (a, 8)) : TouchesOnly P (loadWord a) := by
  intro s b hb
  rw [run_loadWord] at hb
  simp only [List.mem_append, List.mem_singleton] at hb ⊢
  rcases hb with (hb | rfl) | hb
  · exact Or.inl (Or.inl hb)
  · exact Or.inr h
  · exact Or.inl (Or.inr hb)

theorem touchesOnly_storeBytes {a : Addr} {n : ℕ} (h : P (a, n)) (f : ℕ → Byte) :
    TouchesOnly P (storeBytes a n f) := by
  intro s b hb
  rw [run_storeBytes] at hb
  simp only [List.mem_append, List.mem_singleton] at hb ⊢
  rcases hb with hb | hb | rfl
  · exact Or.inl (Or.inl hb)
  · exact Or.inl (Or.inr hb)
  · exact Or.inr h

theorem touchesOnly_copyBytes {dst src : Addr} {n : ℕ} (hsrc : P (src, n)) (hdst : P (dst, n)) :
    TouchesOnly P (copyBytes dst src n) := by
  intro s b hb
  rw [run_copyBytes] at hb
  simp only [List.mem_append, List.mem_singleton] at hb ⊢
  rcases hb with (hb | rfl) | hb | rfl
  · exact Or.inl (Or.inl hb)
  · exact Or.inr hsrc
  · exact Or.inl (Or.inr hb)
  · exact Or.inr hdst

end TouchesOnly

/-! ### Regions -/

/-- A region of `len` bytes. -/
structure Span where
  start : Addr
  len : ℕ

namespace Span

/-- How far an address lies behind the start, around the top if need be. -/
def offset (R : Span) (a : Addr) : ℕ := (a - R.start).toNat

def Contains (R : Span) (a : Addr) : Prop := R.offset a < R.len

/-- All `n` bytes from `a` on lie in the region. -/
def Covers (R : Span) (a : Addr) (n : ℕ) : Prop :=
  ∀ i, i < n → R.Contains (a + BitVec.ofNat 64 i)

theorem offset_add (R : Span) (a : Addr) (i : ℕ) :
    R.offset (a + BitVec.ofNat 64 i) = (R.offset a + i) % 2 ^ 64 := by
  have hcomm : a + BitVec.ofNat 64 i - R.start = a - R.start + BitVec.ofNat 64 i := by
    ring
  rw [offset, hcomm, BitVec.toNat_add, BitVec.toNat_ofNat, offset, Nat.add_mod_mod]

theorem offset_start_add (R : Span) {i : ℕ} (hi : i < 2 ^ 64) :
    R.offset (R.start + BitVec.ofNat 64 i) = i := by
  rw [offset_add, offset, BitVec.sub_self, BitVec.toNat_zero, Nat.zero_add, Nat.mod_eq_of_lt hi]

/-- A block lies in a region iff it is empty or ends before the region does. -/
theorem covers_iff {R : Span} (h : R.len < 2 ^ 64) (a : Addr) (n : ℕ) :
    R.Covers a n ↔ n = 0 ∨ R.offset a + n ≤ R.len := by
  constructor
  · intro hcovers
    by_contra hout
    push Not at hout
    obtain ⟨hn, hout⟩ := hout
    -- the first byte behind the region
    have hlt := hcovers (R.len - R.offset a) (by omega)
    have hstart := hcovers 0 (by omega)
    rw [Contains, offset_add] at hlt hstart
    have hoff : R.offset a < 2 ^ 64 := (a - R.start).isLt
    rw [Nat.add_zero, Nat.mod_eq_of_lt hoff] at hstart
    rw [Nat.mod_eq_of_lt (by omega)] at hlt
    omega
  · intro hin i hi
    rw [Contains, offset_add, Nat.mod_eq_of_lt (by omega)]
    omega

theorem Covers.contains {R : Span} {a x : Addr} {n : ℕ} (h : R.Covers a n)
    (hx : (⟨a, n⟩ : Span).Contains x) : R.Contains x := by
  have hoffset := h (x - a).toNat hx
  rwa [BitVec.ofNat_toNat, BitVec.setWidth_eq, BitVec.add_comm, BitVec.sub_add_cancel] at hoffset

theorem Covers.trans {R : Span} {a b : Addr} {n k : ℕ} (h : R.Covers a n)
    (hb : (⟨a, n⟩ : Span).Covers b k) : R.Covers b k := fun i hi => h.contains (hb i hi)

/-- A region covers the blocks inside it. -/
theorem covers_block (a : Addr) {n d k : ℕ} (hk : d + k ≤ n) (hn : n ≤ 2 ^ 64) :
    (⟨a, n⟩ : Span).Covers (a + BitVec.ofNat 64 d) k := by
  intro i hi
  rw [BitVec.add_assoc, ← BitVec.ofNat_add, Contains, offset_start_add ⟨a, n⟩ (by omega)]
  show d + i < n
  omega

theorem covers_prefix (a : Addr) {n k : ℕ} (hk : k ≤ n) (hn : n ≤ 2 ^ 64) :
    (⟨a, n⟩ : Span).Covers a k := by
  have hblock := covers_block a (d := 0) (by omega : 0 + k ≤ n) hn
  rwa [BitVec.add_zero] at hblock

end Span

/-! ### What stores leave alone -/

/-- Outside the regions the second memory is the first. -/
def EqOutside (Rs : List Span) (m m' : Mem) : Prop :=
  ∀ x, (∀ R ∈ Rs, ¬ R.Contains x) → m' x = m x

section EqOutside

variable {Rs : List Span} {m m' m'' : Mem}

theorem eqOutside_refl (Rs : List Span) (m : Mem) : EqOutside Rs m m := fun _ _ => rfl

theorem EqOutside.trans (h : EqOutside Rs m m') (h' : EqOutside Rs m' m'') :
    EqOutside Rs m m'' := fun x hx => (h' x hx).trans (h x hx)

theorem EqOutside.mono (h : EqOutside Rs m m') {Rs' : List Span} (hRs : Rs ⊆ Rs') :
    EqOutside Rs' m m' := fun x hx => h x fun R hR => hx R (hRs hR)

/-- A store changes the region around it. -/
theorem eqOutside_writeBytes {R : Span} (hR : R ∈ Rs) {a : Addr} {n : ℕ} (h : R.Covers a n)
    (m : Mem) (f : ℕ → Byte) : EqOutside Rs m (writeBytes m a n f) :=
  fun _ hx => if_neg fun hin => hx R hR (h.contains hin)

end EqOutside

end AccessLog
