/-
What `memalign` does to the heap.

* `badAlign_eq_false` — the alignments `memalign` accepts are the powers of two;
* `Gap` — what `before_size` is: the space to leave in front of an aligned block;
* `handed_behind`, `handed_between` — a block taken out of a free one behind a gap;
* `AlignOutcome` — the outcomes of a call, and when it has made the heap larger;
* **`memalign_spec`** — on a heap, `memalign` returns null or an aligned block.
-/
import KeystoneSdk.HeapMalloc

open ByteMemory BlockHeap

namespace KeystoneSdk

namespace TinyMalloc

variable {σ : Type} {start : MallocStart}

/-! ### Alignments -/

theorem badAlign_eq_false {align : BitVec 64} :
    badAlign align = false ↔ ∃ k, k < 64 ∧ align = BitVec.ofNat 64 (2 ^ k) := by
  have hlt := align.isLt
  have hand : align ≠ 0#64 → (align &&& (align - 1#64) = 0#64 ↔
      align.toNat &&& (align.toNat - 1) = 0) := by
    intro hne
    have hpos : align.toNat ≠ 0 := fun h => hne (BitVec.eq_of_toNat_eq h)
    have hpred : (align - 1#64).toNat = align.toNat - 1 := by
      rw [BitVec.toNat_sub, BitVec.toNat_ofNat]
      omega
    rw [← BitVec.toNat_inj, BitVec.toNat_and, hpred]
    rfl
  unfold badAlign
  rw [Bool.or_eq_false_iff, bne_eq_false_iff_eq, beq_eq_false_iff_ne]
  constructor
  · rintro ⟨hzero, hne⟩
    have hpos : align.toNat ≠ 0 := fun h => hne (BitVec.eq_of_toNat_eq h)
    obtain ⟨k, hk⟩ := (Nat.and_sub_one_eq_zero_iff_isPowerOfTwo hpos).1 ((hand hne).1 hzero)
    refine ⟨k, ?_, BitVec.eq_of_toNat_eq ?_⟩
    · by_contra hge
      have := Nat.pow_le_pow_right (show 0 < 2 by omega) (Nat.not_lt.1 hge)
      omega
    · rw [BitVec.toNat_ofNat, hk, Nat.mod_eq_of_lt]
      omega
  · rintro ⟨k, hk, rfl⟩
    have hpow : 2 ^ k < 2 ^ 64 := Nat.pow_lt_pow_right (by omega) hk
    have hne : BitVec.ofNat 64 (2 ^ k) ≠ 0#64 := by
      intro h
      have hnat := congrArg BitVec.toNat h
      rw [BitVec.toNat_ofNat, Nat.mod_eq_of_lt hpow] at hnat
      exact absurd hnat (Nat.two_pow_pos k).ne'
    refine ⟨(hand hne).2 ?_, hne⟩
    rw [BitVec.toNat_ofNat, Nat.mod_eq_of_lt hpow, Nat.and_two_pow_sub_one_eq_mod, Nat.mod_self]

/-- Adding `M_ALIGN(x, align)` to `x` gives a multiple of the alignment. -/
theorem mAlign_ofNat (x : ℕ) {k : ℕ} (hk : k < 64) :
    (mAlign (BitVec.ofNat 64 x) (BitVec.ofNat 64 (2 ^ k))).toNat < 2 ^ k ∧
      2 ^ k ∣ x + (mAlign (BitVec.ofNat 64 x) (BitVec.ofNat 64 (2 ^ k))).toNat := by
  have hpos := Nat.two_pow_pos k
  have hdvd : 2 ^ k ∣ 2 ^ 64 := Nat.pow_dvd_pow 2 hk.le
  rw [mAlign_toNat _ hk, BitVec.toNat_ofNat]
  refine ⟨Nat.mod_lt _ hpos, ?_⟩
  have hx := Nat.mod_lt x (Nat.two_pow_pos 64)
  have hsum : 2 ^ k ∣ x % 2 ^ 64 + (2 ^ 64 - x % 2 ^ 64) := by
    rw [Nat.add_sub_cancel' hx.le]
    exact hdvd
  have hmod : 2 ^ k ∣ x + (2 ^ 64 - x % 2 ^ 64) := by
    have hx' : x + (2 ^ 64 - x % 2 ^ 64) =
        2 ^ 64 * (x / 2 ^ 64) + (x % 2 ^ 64 + (2 ^ 64 - x % 2 ^ 64)) := by
      have := Nat.div_add_mod x (2 ^ 64)
      omega
    rw [hx']
    exact Dvd.dvd.add (hdvd.mul_right _) hsum
  have := Nat.div_add_mod (2 ^ 64 - x % 2 ^ 64) (2 ^ k)
  rw [Nat.dvd_iff_mod_eq_zero, Nat.add_mod, Nat.mod_mod, ← Nat.add_mod]
  exact Nat.mod_eq_zero_of_dvd hmod

/-- The space `b` in front of an aligned block that starts in a free block at `a`:
nothing, or room for a free block. -/
structure Gap (a k b : ℕ) : Prop where
  room : b = 0 ∨ 16 ≤ b
  words : b % 8 = 0
  aligned : 2 ^ k ∣ a + b + 8

/-- `before_size` is a gap, and at least what it takes to align the address of the
block itself. -/
theorem beforeSize_gap {a k : ℕ} (ha : a % 8 = 0) (hk : k < 64) :
    Gap a k (beforeSize (BitVec.ofNat 64 a) (BitVec.ofNat 64 (2 ^ k))).toNat ∧
      (mAlign (BitVec.ofNat 64 a + 8#64) (BitVec.ofNat 64 (2 ^ k))).toNat ≤
        (beforeSize (BitVec.ofNat 64 a) (BitVec.ofNat 64 (2 ^ k))).toNat ∧
      (mAlign (BitVec.ofNat 64 a + 8#64) (BitVec.ofNat 64 (2 ^ k))).toNat % 8 = 0 ∧
      ((beforeSize (BitVec.ofNat 64 a) (BitVec.ofNat 64 (2 ^ k))).toNat = 0 →
        (mAlign (BitVec.ofNat 64 a + 8#64) (BitVec.ofNat 64 (2 ^ k))).toNat = 0) := by
  have hpow : 2 ^ k ≤ 2 ^ 63 := Nat.pow_le_pow_right (by omega) (by omega)
  have h8 : BitVec.ofNat 64 a + 8#64 = BitVec.ofNat 64 (a + 8) := (BitVec.ofNat_add _ _).symm
  have h24 : BitVec.ofNat 64 a + sizeofEntry + 8#64 = BitVec.ofNat 64 (a + 24) := by
    show BitVec.ofNat 64 a + BitVec.ofNat 64 16 + BitVec.ofNat 64 8 = _
    rw [← BitVec.ofNat_add, ← BitVec.ofNat_add]
  obtain ⟨hm, hmdvd⟩ := mAlign_ofNat (a + 8) hk
  obtain ⟨hm', hmdvd'⟩ := mAlign_ofNat (a + 24) hk
  unfold beforeSize
  rw [h8, h24]
  set m := mAlign (BitVec.ofNat 64 (a + 8)) (BitVec.ofNat 64 (2 ^ k)) with hmdef
  set m' := mAlign (BitVec.ofNat 64 (a + 24)) (BitVec.ofNat 64 (2 ^ k)) with hmdef'
  have hsmall : k < 3 → m.toNat = 0 := by
    intro hk3
    -- an alignment below a word never asks for a gap
    have hdvd8 : 2 ^ k ∣ a + 8 := by
      have h3 : 2 ^ k ∣ 2 ^ 3 := Nat.pow_dvd_pow 2 hk3.le
      exact h3.trans (Nat.dvd_of_mod_eq_zero (by omega))
    have := (Nat.dvd_add_right hdvd8).1 hmdvd
    exact Nat.eq_zero_of_dvd_of_lt this hm
  have hwords : ∀ x c, 2 ^ k ∣ x + c → x % 8 = 0 → 3 ≤ k → c % 8 = 0 := by
    intro x c hdvd hx hk3
    have h3 : 2 ^ 3 ∣ x + c := (Nat.pow_dvd_pow 2 hk3).trans hdvd
    omega
  by_cases hzero : m = 0#64
  · have hm0 : m.toNat = 0 := by
      rw [hzero]
      rfl
    rw [if_neg fun h => h hzero, hm0]
    rw [hm0, Nat.add_zero] at hmdvd
    exact ⟨⟨.inl rfl, rfl, hmdvd⟩, le_refl _, rfl, fun _ => rfl⟩
  · rw [if_pos hzero]
    have hmpos : m.toNat ≠ 0 := fun h => hzero (BitVec.eq_of_toNat_eq h)
    have hk3 : 3 ≤ k := by
      by_contra hlt
      exact hmpos (hsmall (by omega))
    have hsum : (sizeofEntry + m').toNat = 16 + m'.toNat := by
      rw [BitVec.toNat_add]
      exact Nat.mod_eq_of_lt (by show 16 + _ < _; omega)
    have hm8 := hwords (a + 8) m.toNat hmdvd (by omega) hk3
    have hm8' := hwords (a + 24) m'.toNat hmdvd' (by omega) hk3
    rw [hsum]
    refine ⟨⟨.inr (by omega), by omega, ?_⟩, ?_, hm8, fun h => by omega⟩
    · rw [show a + (16 + m'.toNat) + 8 = a + 24 + m'.toNat by omega]
      exact hmdvd'
    · by_contra hlt
      -- two multiples of the alignment closer than the alignment
      have hdiff : 2 ^ k ∣ a + 8 + m.toNat - (a + 24 + m'.toNat) := Nat.dvd_sub hmdvd hmdvd'
      have := Nat.eq_zero_of_dvd_of_lt hdiff (by omega)
      omega

/-! ### Blocks behind a gap -/

section Ways

variable {s : TinyMalloc σ} {pre post : List Block} {size r n b : ℕ}

/-- All of a free block behind the gap is handed out; the gap stays free. -/
theorem handed_behind (h : Represents start s (pre ++ ⟨size, none⟩ :: post)) (hb : 16 ≤ b)
    (hb8 : b % 8 = 0) (hr : 16 ≤ r) (hn : n + 8 ≤ r) (hsize : r + b ≤ size) :
    let s' := (s.setSize (BitVec.ofNat 64 (start.base + total pre)) (BitVec.ofNat 64 b)).setSize
      (BitVec.ofNat 64 (start.base + total pre + b)) (BitVec.ofNat 64 (size - b))
    Handed start s s' (pre ++ ⟨size, none⟩ :: post)
        (pre ++ ⟨b, none⟩ :: ⟨size - b, some n⟩ :: post)
        (BitVec.ofNat 64 (start.base + total pre + b + 8)) n ∧
      Writes s s' s.mallocEnd.toNat ∧ s'.mallocEnd = s.mallocEnd := by
  intro s'
  obtain ⟨hpre, hok, hpost, hlast, -⟩ := row_free.1 h.row
  have hsize8 : size % 8 = 0 := hok.aligned
  have hlt := h.lt
  have htop := h.top_toNat
  simp only [total_append, total_cons] at hlt htop
  obtain ⟨w, hfront, rfl, hs, hrest⟩ := laid_append.1 h.laid
  set a := start.base + total pre with ha
  -- the first part stays in the list, with its old link, and the headers lie in the old block
  have hf := ((Front.refl hfront).store hpre.ok (BitVec.ofNat 64 b) (le_refl _) (by omega)).store
    hpre.ok (BitVec.ofNat 64 (size - b)) (q := a + b) (by omega) (by omega)
  have hmem : s'.mem = writeLE64 (writeLE64 s.mem (BitVec.ofNat 64 a) (BitVec.ofNat 64 b))
      (BitVec.ofNat 64 (a + b)) (BitVec.ofNat 64 (size - b)) := rfl
  have hbehind : Agree s.mem s'.mem (a + size) (a + size + total post) := by
    rw [hmem]
    refine Agree.store ?_ (by omega) (by omega) (.inr (by omega))
    exact agree_writeLE64 _ _ (by omega) (by omega) (.inr (by omega))
  have htotal : total (pre ++ ⟨b, none⟩ :: ⟨size - b, some n⟩ :: post) =
      total (pre ++ ⟨size, none⟩ :: post) := by
    simp only [total_append, total_cons]
    omega
  have hgap : (⟨b, none⟩ : Block).Ok := ⟨hb, hb8, nofun⟩
  have hused : (⟨size - b, some n⟩ : Block).Ok := by
    refine ⟨by show 16 ≤ size - b; omega, by show (size - b) % 8 = 0; omega, fun k hk => ?_⟩
    obtain rfl := Option.some.inj hk
    show n + 8 ≤ size - b
    omega
  refine ⟨⟨⟨?_, ?_, ?_, ?_⟩, ?_, ?_⟩, ?_, rfl⟩
  · refine laid_append.2 ⟨_, hf.laid, rfl, ?_, ?_, ?_⟩
    · rw [← ha, hmem, readLE64_writeLE64_disjoint _ _ (by omega) (by omega) (by omega),
        readLE64_writeLE64_same]
    · rw [← ha, hmem, readLE64_writeLE64_same]
    · have hnext : readLE64 s'.mem (BitVec.ofNat 64 (a + 8)) =
          readLE64 s.mem (BitVec.ofNat 64 (a + 8)) := by
        rw [hmem, readLE64_writeLE64_disjoint (x := a + 8) _ _ (by omega) (by omega) (by omega),
          readLE64_writeLE64_disjoint _ _ (by omega) (by omega) (by omega)]
      rw [← ha, hnext, show a + b + (size - b) = a + size by omega]
      exact hrest.congr hpost.ok hbehind
  · exact row_free.2 ⟨hpre, hgap, row_used_cons.2 ⟨hused, hpost⟩,
      hlast, headUsed_cons_used _ _ _⟩
  · rw [htotal]
    exact h.below
  · rw [htotal]
    exact h.top
  · have := @chunks_replace start.base pre [⟨size, none⟩]
      [⟨b, none⟩, ⟨size - b, some n⟩] post _ n rfl rfl
      (.inr (by simp only [total_cons, total_nil]; omega))
    simpa using this
  · exact kept_append.2 ⟨hf.kept, fun h => absurd rfl h, hbehind.kept⟩
  · rw [htop]
    exact ((Writes.refl s _).store _ (by omega) (by omega)).store _ (by omega) (by omega)

/-- A block behind the gap is handed out, and the free block is left in two parts. -/
theorem handed_between (h : Represents start s (pre ++ ⟨size, none⟩ :: post)) (hb : 16 ≤ b)
    (hb8 : b % 8 = 0) (hr : 16 ≤ r) (hr8 : r % 8 = 0) (hn : n + 8 ≤ r)
    (hsize : r + 16 + b < size) :
    let old := BitVec.ofNat 64 (start.base + total pre)
    let new := BitVec.ofNat 64 (start.base + total pre + b + r)
    let s1 := s.setSize old (BitVec.ofNat 64 b)
    let s2 := s1.setSize new (BitVec.ofNat 64 (size - b - r))
    let s3 := s2.setNext new (s2.next old)
    let s' := (s3.setNext old new).setSize (BitVec.ofNat 64 (start.base + total pre + b))
      (BitVec.ofNat 64 r)
    Handed start s s' (pre ++ ⟨size, none⟩ :: post)
        (pre ++ ⟨b, none⟩ :: ⟨r, some n⟩ :: ⟨size - b - r, none⟩ :: post)
        (BitVec.ofNat 64 (start.base + total pre + b + 8)) n ∧
      Writes s s' s.mallocEnd.toNat ∧ s'.mallocEnd = s.mallocEnd := by
  intro old new s1 s2 s3 s'
  obtain ⟨hpre, hok, hpost, hlast, hhead⟩ := row_free.1 h.row
  have hsize8 : size % 8 = 0 := hok.aligned
  have hlt := h.lt
  have htop := h.top_toNat
  simp only [total_append, total_cons] at hlt htop
  obtain ⟨w, hfront, rfl, hs, hrest⟩ := laid_append.1 h.laid
  set a := start.base + total pre with ha
  set u := readLE64 s.mem (BitVec.ofNat 64 (a + 8)) with hu
  have hold : old = BitVec.ofNat 64 a := rfl
  have hnew : new = BitVec.ofNat 64 (a + b + r) := rfl
  have hnext2 : s2.next old = u := by
    rw [hold, next_ofNat]
    refine (readLE64_writeLE64_disjoint _ _ (by omega) (by omega) (by omega)).trans ?_
    exact readLE64_writeLE64_disjoint _ _ (by omega) (by omega) (by omega)
  -- the five stores
  have hs' : s' = ((((s.storeHeader (BitVec.ofNat 64 a) (BitVec.ofNat 64 b)).storeHeader
      (BitVec.ofNat 64 (a + b + r)) (BitVec.ofNat 64 (size - b - r))).storeHeader
      (BitVec.ofNat 64 (a + b + r + 8)) u).storeHeader (BitVec.ofNat 64 (a + 8))
      (BitVec.ofNat 64 (a + b + r))).storeHeader (BitVec.ofNat 64 (a + b))
      (BitVec.ofNat 64 r) := by
    show ((s2.setNext new (s2.next old)).setNext old new).setSize _ _ = _
    rw [hnext2, hnew, setNext_ofNat, setNext_ofNat]
    rfl
  have hf : Front start s s' pre (BitVec.ofNat 64 a) := by
    rw [hs']
    refine Front.store ?_ hpre.ok _ (by omega) (by omega)
    refine Front.store ?_ hpre.ok _ (by omega) (by omega)
    refine Front.store ?_ hpre.ok _ (by omega) (by omega)
    refine Front.store ?_ hpre.ok _ (by omega) (by omega)
    exact (Front.refl hfront).store hpre.ok _ (le_refl _) (by omega)
  have hw : Writes s s' s.mallocEnd.toNat := by
    rw [hs', htop]
    refine Writes.store ?_ _ (by omega) (by omega)
    refine Writes.store ?_ _ (by omega) (by omega)
    refine Writes.store ?_ _ (by omega) (by omega)
    refine Writes.store ?_ _ (by omega) (by omega)
    exact (Writes.refl s _).store _ (by omega) (by omega)
  have hmem : s'.mem = writeLE64 (writeLE64 (writeLE64 (writeLE64 (writeLE64 s.mem
      (BitVec.ofNat 64 a) (BitVec.ofNat 64 b)) (BitVec.ofNat 64 (a + b + r))
      (BitVec.ofNat 64 (size - b - r))) (BitVec.ofNat 64 (a + b + r + 8)) u)
      (BitVec.ofNat 64 (a + 8)) (BitVec.ofNat 64 (a + b + r))) (BitVec.ofNat 64 (a + b))
      (BitVec.ofNat 64 r) := by
    rw [hs']
    rfl
  have hbehind : Agree s.mem s'.mem (a + size) (a + size + total post) := by
    rw [hmem]
    refine Agree.store ?_ (by omega) (by omega) (.inr (by omega))
    refine Agree.store ?_ (by omega) (by omega) (.inr (by omega))
    refine Agree.store ?_ (by omega) (by omega) (.inr (by omega))
    refine Agree.store ?_ (by omega) (by omega) (.inr (by omega))
    exact agree_writeLE64 _ _ (by omega) (by omega) (.inr (by omega))
  have htotal : total (pre ++ ⟨b, none⟩ :: ⟨r, some n⟩ :: ⟨size - b - r, none⟩ :: post) =
      total (pre ++ ⟨size, none⟩ :: post) := by
    simp only [total_append, total_cons]
    omega
  have hgap : (⟨b, none⟩ : Block).Ok := ⟨hb, hb8, nofun⟩
  have hused : (⟨r, some n⟩ : Block).Ok := by
    refine ⟨hr, hr8, fun k hk => ?_⟩
    obtain rfl := Option.some.inj hk
    exact hn
  have hleft : (⟨size - b - r, none⟩ : Block).Ok :=
    ⟨by show 16 ≤ size - b - r; omega, by show (size - b - r) % 8 = 0; omega, nofun⟩
  refine ⟨⟨⟨?_, ?_, ?_, ?_⟩, ?_, ?_⟩, hw, ?_⟩
  · refine laid_append.2 ⟨_, hf.laid, rfl, ?_, ?_, ?_, ?_, ?_⟩
    · rw [← ha, hmem, readLE64_writeLE64_disjoint _ _ (by omega) (by omega) (by omega),
        readLE64_writeLE64_disjoint _ _ (by omega) (by omega) (by omega),
        readLE64_writeLE64_disjoint _ _ (by omega) (by omega) (by omega),
        readLE64_writeLE64_disjoint _ _ (by omega) (by omega) (by omega),
        readLE64_writeLE64_same]
    · rw [← ha, hmem, readLE64_writeLE64_same]
    · rw [← ha, hmem, readLE64_writeLE64_disjoint _ _ (by omega) (by omega) (by omega),
        readLE64_writeLE64_same]
    · rw [← ha, hmem, readLE64_writeLE64_disjoint _ _ (by omega) (by omega) (by omega),
        readLE64_writeLE64_disjoint _ _ (by omega) (by omega) (by omega),
        readLE64_writeLE64_disjoint _ _ (by omega) (by omega) (by omega),
        readLE64_writeLE64_same]
    · have hnext : readLE64 s'.mem (BitVec.ofNat 64 (a + b + r + 8)) = u := by
        rw [hmem, readLE64_writeLE64_disjoint (x := a + b + r + 8) _ _ (by omega) (by omega)
            (by omega),
          readLE64_writeLE64_disjoint _ _ (by omega) (by omega) (by omega),
          readLE64_writeLE64_same]
      rw [← ha, hnext, show a + b + r + (size - b - r) = a + size by omega]
      exact hrest.congr hpost.ok hbehind
  · refine row_free.2 ⟨hpre, hgap, ?_, hlast, headUsed_cons_used _ _ _⟩
    refine row_used_cons.2 ⟨hused, ?_⟩
    exact row_free_cons.2 ⟨hleft, hpost, hhead⟩
  · rw [htotal]
    exact h.below
  · rw [hs', htotal]
    exact h.top
  · have := @chunks_replace start.base pre [⟨size, none⟩]
      [⟨b, none⟩, ⟨r, some n⟩, ⟨size - b - r, none⟩] post _ n rfl rfl
      (.inr (by simp only [total_cons, total_nil]; omega))
    simpa using this
  · exact kept_append.2 ⟨hf.kept, fun h => absurd rfl h, hbehind.kept⟩
  · rw [hs']
    rfl

/-- The last free block, at the end of the heap, is made `m` bytes long. -/
theorem extendFree (h : Represents start s (pre ++ [⟨size, none⟩])) {m : ℕ} (hm : 16 ≤ m)
    (hm8 : m % 8 = 0) (hroom : start.base + total pre + m + 16 ≤ 2 ^ 64) :
    let s' := ({ s with mallocEnd := BitVec.ofNat 64 (start.base + total pre + m) } :
      TinyMalloc σ).setSize (BitVec.ofNat 64 (start.base + total pre)) (BitVec.ofNat 64 m)
    Represents start s' (pre ++ [⟨m, none⟩]) ∧ Kept s.mem s'.mem start.base pre ∧
      Writes s s' s.mallocEnd.toNat := by
  intro s'
  obtain ⟨hpre, hok, -, hlast, -⟩ := row_free.1 h.row
  have hsize : 16 ≤ size := hok.room
  have hlt := h.lt
  have htop := h.top_toNat
  simp only [total_append, total_cons, total_nil] at hlt htop
  obtain ⟨w, hfront, rfl, hs, hrest⟩ := laid_append.1 h.laid
  set a := start.base + total pre with ha
  have hf := (Front.refl hfront).store hpre.ok (BitVec.ofNat 64 m) (le_refl _) (by omega)
  have hfree : (⟨m, none⟩ : Block).Ok := ⟨hm, hm8, nofun⟩
  have htotal : start.base + total (pre ++ [⟨m, none⟩]) = a + m := by
    simp only [total_append, total_cons, total_nil]
    omega
  refine ⟨⟨?_, ?_, ?_, ?_⟩, hf.kept, ?_⟩
  · refine laid_append.2 ⟨_, hf.laid, rfl, readLE64_writeLE64_same _ _ _, ?_⟩
    refine Eq.trans hrest ?_
    exact (readLE64_writeLE64_disjoint _ _ (by omega) (by omega) (by omega)).symm
  · exact row_free.2 ⟨hpre, hfree, ⟨nofun, List.isChain_nil⟩, hlast, headUsed_nil⟩
  · rw [htotal]
    exact hroom
  · rw [htotal]
    rfl
  · exact ((Writes.refl s _).setEnd _).store _ (by omega) (by omega)

/-- A free block of `m` bytes is appended to the heap and to the free list. -/
theorem growFree (h : Represents start s pre) (hlast : LastUsed pre) {m : ℕ} (hm : 16 ≤ m)
    (hm8 : m % 8 = 0) (hroom : start.base + total pre + m + 16 ≤ 2 ^ 64) :
    let block := BitVec.ofNat 64 (start.base + total pre)
    let s' := ((({ s with mallocEnd := BitVec.ofNat 64 (start.base + total pre + m) } :
      TinyMalloc σ).assign (link start pre) block).setSize block (BitVec.ofNat 64 m)).setNext
        block 0#64
    Represents start s' (pre ++ [⟨m, none⟩]) ∧ Kept s.mem s'.mem start.base pre ∧
      Writes s s' s'.mallocEnd.toNat := by
  intro block s'
  set a := start.base + total pre with ha
  set s0 : TinyMalloc σ := { s with mallocEnd := BitVec.ofNat 64 (a + m) } with hs0
  have hlaid0 : Laid s0.mem s0.freelist start.base pre 0#64 := h.laid
  -- the last link leads to the new block, whose header and link are behind the row
  obtain ⟨hf1, hw1, -⟩ := assign_link hlaid0 h.row.ok (by omega) block
  have hs' : s' = ((s0.assign (link start pre) block).storeHeader (BitVec.ofNat 64 a)
      (BitVec.ofNat 64 m)).storeHeader (BitVec.ofNat 64 (a + 8)) 0#64 :=
    setNext_ofNat _ a 0#64
  have hf := (hf1.store h.row.ok (BitVec.ofNat 64 m) (q := a) (le_refl _) (by omega)).store
    h.row.ok 0#64 (q := a + 8) (by omega) (by omega)
  rw [← hs'] at hf
  have hmem : s'.mem = writeLE64 (writeLE64 (s0.assign (link start pre) block).mem
      (BitVec.ofNat 64 a) (BitVec.ofNat 64 m)) (BitVec.ofNat 64 (a + 8)) 0#64 := by
    rw [hs']
    rfl
  have hfree : (⟨m, none⟩ : Block).Ok := ⟨hm, hm8, nofun⟩
  have htotal : start.base + total (pre ++ [⟨m, none⟩]) = a + m := by
    simp only [total_append, total_cons, total_nil]
    omega
  have hend : s'.mallocEnd = BitVec.ofNat 64 (a + m) := by
    rw [hs', storeHeader_mallocEnd, storeHeader_mallocEnd, assign_mallocEnd]
  refine ⟨⟨?_, ?_, ?_, ?_⟩, hf.kept, ?_⟩
  · refine laid_append.2 ⟨_, hf.laid, rfl, ?_, ?_⟩
    · rw [← ha, hmem, readLE64_writeLE64_disjoint _ _ (by omega) (by omega) (by omega),
        readLE64_writeLE64_same]
    · show 0#64 = readLE64 s'.mem (BitVec.ofNat 64 (a + 8))
      rw [hmem, readLE64_writeLE64_same]
  · exact row_free.2 ⟨h.row, hfree, ⟨nofun, List.isChain_nil⟩, hlast, headUsed_nil⟩
  · rw [htotal]
    exact hroom
  · rw [htotal, hend]
  · have hw0 : Writes s s0 (a + m) := (Writes.refl s _).setEnd _
    rw [hend, BitVec.toNat_ofNat, Nat.mod_eq_of_lt (by omega), hs']
    exact ((hw0.trans (hw1.mono (by omega))).store _ (by omega) (by omega)).store 0#64
      (by omega) (by omega)

/-- The part of `memalign` that takes its block out of a free one. -/
theorem memalignCarve_spec {k : ℕ} (h : Represents start s (pre ++ ⟨size, none⟩ :: post))
    (hgap : Gap (start.base + total pre) k b) (hr : 16 ≤ r) (hr8 : r % 8 = 0) (hn : n + 8 ≤ r)
    (hsize : r + b ≤ size) :
    let result := memalignCarve (BitVec.ofNat 64 r) (link start pre)
      (BitVec.ofNat 64 (start.base + total pre)) (BitVec.ofNat 64 size) (BitVec.ofNat 64 b) s
    result.1 = BitVec.ofNat 64 (start.base + total pre + b + 8) ∧
      (∃ bs', Handed start s result.2 (pre ++ ⟨size, none⟩ :: post) bs'
        (BitVec.ofNat 64 (start.base + total pre + b + 8)) n) ∧
      Writes s result.2 s.mallocEnd.toNat ∧ result.2.mallocEnd = s.mallocEnd := by
  intro result
  have hbelow := h.below
  have hpos := start.base_pos
  simp only [total_append, total_cons] at hbelow
  set a := start.base + total pre with ha
  have hresult : result = memalignCarve (BitVec.ofNat 64 r) (link start pre) (BitVec.ofNat 64 a)
      (BitVec.ofNat 64 size) (BitVec.ofNat 64 b) s := rfl
  have hentry : BitVec.ofNat 64 r + sizeofEntry = BitVec.ofNat 64 (r + 16) :=
    (BitVec.ofNat_add _ _).symm
  have hle : ∀ x, x < 2 ^ 64 →
      (BitVec.ofNat 64 x ≤ BitVec.ofNat 64 (r + 16) ↔ x ≤ r + 16) := by
    intro x hx
    rw [BitVec.le_def, BitVec.toNat_ofNat, BitVec.toNat_ofNat, Nat.mod_eq_of_lt hx,
      Nat.mod_eq_of_lt (by omega)]
  have hpayload : ∀ x, BitVec.ofNat 64 x + 8#64 = BitVec.ofNat 64 (x + 8) :=
    fun x => (BitVec.ofNat_add _ _).symm
  unfold memalignCarve at hresult
  rw [hentry] at hresult
  rcases hgap.room with rfl | hb
  · -- no gap: the block is taken or split as `malloc` does
    rw [if_neg (fun hne => hne rfl)] at hresult
    by_cases hwhole : size ≤ r + 16
    · rw [if_pos ((hle size (by omega)).2 hwhole), hpayload] at hresult
      obtain ⟨hhanded, hw, hend⟩ := handed_take h (n := n) (by omega)
      rw [hresult]
      exact ⟨rfl, ⟨_, hhanded⟩, hw, hend⟩
    · rw [if_neg (fun hc => hwhole ((hle size (by omega)).1 hc)), hpayload] at hresult
      obtain ⟨hhanded, hw, hend⟩ := handed_split h hr hr8 hn (by omega)
      rw [hresult]
      exact ⟨rfl, ⟨_, hhanded⟩, hw, hend⟩
  · have hne : BitVec.ofNat 64 b ≠ 0#64 := by
      intro hzero
      have := (ofNat_inj (by omega) (by omega)).1 hzero
      omega
    have hsub : BitVec.ofNat 64 size - BitVec.ofNat 64 b = BitVec.ofNat 64 (size - b) :=
      ofNat_sub_ofNat (by omega) (by omega)
    rw [if_pos hne, hsub, ← BitVec.ofNat_add] at hresult
    by_cases hwhole : size - b ≤ r + 16
    · rw [if_pos ((hle _ (by omega)).2 hwhole), hpayload] at hresult
      obtain ⟨hhanded, hw, hend⟩ := handed_behind h hb hgap.words hr hn hsize
      rw [hresult]
      exact ⟨rfl, ⟨_, hhanded⟩, hw, hend⟩
    · have hsub' : BitVec.ofNat 64 (size - b) - BitVec.ofNat 64 r =
          BitVec.ofNat 64 (size - b - r) := ofNat_sub_ofNat (by omega) (by omega)
      rw [if_neg (fun hc => hwhole ((hle _ (by omega)).1 hc)), hpayload, hsub',
        ← BitVec.ofNat_add] at hresult
      obtain ⟨hhanded, hw, hend⟩ := handed_between h hb hgap.words hr hr8 hn (by omega)
      rw [hresult]
      exact ⟨rfl, ⟨_, hhanded⟩, hw, hend⟩

end Ways

/-! ### The loop -/

/-- `before_size` for a block at `a`. -/
def gapAt (align : BitVec 64) (a : ℕ) : ℕ := (beforeSize (BitVec.ofNat 64 a) align).toNat

/-- No free block of the row has room for `r` bytes behind its gap. -/
def NoFit (align : BitVec 64) (r : ℕ) : ℕ → List Block → Prop
  | _, [] => True
  | a, b :: bs => (b.use = none → b.size < r + gapAt align a) ∧ NoFit align r (a + b.size) bs

/-- What `memalign` asks `CAN_ALLOC_P` for first when it needs more space at the end
of the heap. -/
def firstNeed (align : BitVec 64) (r a : ℕ) : ℕ :=
  r + (mAlign (BitVec.ofNat 64 a + 8#64) align).toNat

/-- The sums of `memalign` do not wrap at any place it looks at in the row.  At the end
of the free list the block is only looked at when it may be appended. -/
def Unwrapped (s : TinyMalloc σ) (frame : Addr) (align : BitVec 64) (r : ℕ) :
    ℕ → List Block → Prop
  | a, [] => s.canAlloc frame (BitVec.ofNat 64 (firstNeed align r a)) = true →
      r + gapAt align a < 2 ^ 64
  | a, ⟨size, some _⟩ :: bs => Unwrapped s frame align r (a + size) bs
  | a, ⟨size, none⟩ :: bs =>
    r + gapAt align a < 2 ^ 64 ∧
      (size < r + gapAt align a → bs ≠ [] → Unwrapped s frame align r (a + size) bs)

theorem noFit_append {align : BitVec 64} {r a : ℕ} {bs cs : List Block} :
    NoFit align r a (bs ++ cs) ↔ NoFit align r a bs ∧ NoFit align r (a + total bs) cs := by
  induction bs generalizing a with
  | nil => simp [NoFit]
  | cons b bs ih => simp only [List.cons_append, NoFit, ih, total_cons, Nat.add_assoc, and_assoc]

/-- `memalign` finds no free block that fits and is allowed to make the heap larger,
up to `e` at most. -/
def GrowsTo (start : MallocStart) (s : TinyMalloc σ) (bs : List Block) (align : BitVec 64) (r : ℕ)
    (frame : Addr) (e : ℕ) : Prop :=
  NoFit align r start.base bs ∧
    ((∃ pre size, bs = pre ++ [⟨size, none⟩] ∧
        s.canAlloc frame (BitVec.ofNat 64
          (gapAt align (start.base + total pre) + r - size)) = true ∧
        e = start.base + total pre + gapAt align (start.base + total pre) + r) ∨
      (LastUsed bs ∧
        s.canAlloc frame (BitVec.ofNat 64 (firstNeed align r (start.base + total bs))) = true ∧
        e = start.base + total bs + gapAt align (start.base + total bs) + r))

/-- `memalign` appends a free block, asks for more space once more and is refused. -/
structure LateRefusal (start : MallocStart) (s : TinyMalloc σ) (bs : List Block)
    (align : BitVec 64) (r : ℕ) (frame : Addr) : Prop where
  noFit : NoFit align r start.base bs
  last : LastUsed bs
  first : s.canAlloc frame (BitVec.ofNat 64 (firstNeed align r (start.base + total bs))) = true
  short : firstNeed align r (start.base + total bs) < r + gapAt align (start.base + total bs)
  second : ({ s with mallocEnd := BitVec.ofNat 64 (start.base + total bs +
      firstNeed align r (start.base + total bs)) } : TinyMalloc σ).canAlloc frame
    (BitVec.ofNat 64 (gapAt align (start.base + total bs) + r -
      firstNeed align r (start.base + total bs))) = false

/-- The outcomes of `memalign`. -/
inductive AlignOutcome (start : MallocStart) (s : TinyMalloc σ) (bs : List Block)
    (align : BitVec 64) (k r n : ℕ) (frame : Addr) (result : Addr × TinyMalloc σ) : Prop
  /-- Nothing is free and the heap may not grow. -/
  | refused (h : result = (0#64, s)) (hlate : ¬ LateRefusal start s bs align r frame)
  /-- The heap has grown by a free block, and that is all. -/
  | late (h : LateRefusal start s bs align r frame) (hnull : result.1 = 0#64)
      (hrow : Represents start result.2 (bs ++
        [⟨firstNeed align r (start.base + total bs), none⟩]))
      (hkept : Kept s.mem result.2.mem start.base bs)
      (hwrites : Writes s result.2 result.2.mallocEnd.toNat)
  /-- A block is handed out. -/
  | handed (bs' : List Block) (h : Handed start s result.2 bs bs' result.1 n)
      (hlate : ¬ LateRefusal start s bs align r frame)
      (haligned : 2 ^ k ∣ result.1.toNat)
      (hwrites : Writes s result.2 result.2.mallocEnd.toNat)
      (htop : result.2.mallocEnd = s.mallocEnd ∨
        ∃ e, GrowsTo start s bs align r frame e ∧ result.2.mallocEnd.toNat = e ∧
          s.mallocEnd.toNat ≤ e)

/-- What is handed out of a heap whose last block has changed is handed out of the
heap before the change. -/
theorem Handed.after_free {s s1 s' : TinyMalloc σ} {pre tail' bs' : List Block} {p : Addr}
    {n : ℕ} (h : Handed start s1 s' (pre ++ tail') bs' p n) (tail : List Block) (hk : Kept s.mem s1.mem start.base pre)
    (htail : ∀ b ∈ tail, b.use = none) (htail' : ∀ b ∈ tail', b.use = none) :
    Handed start s s' (pre ++ tail) bs' p n := by
  refine ⟨h.represents, ?_, kept_append.2 ⟨hk.trans (kept_append.1 h.kept).1, kept_free htail⟩⟩
  have hchunks := h.chunks
  rw [chunks_append, chunks_free htail'] at hchunks
  rw [chunks_append, chunks_free htail]
  exact hchunks

theorem ofNat_gapAt (align : BitVec 64) (a : ℕ) :
    beforeSize (BitVec.ofNat 64 a) align = BitVec.ofNat 64 (gapAt align a) :=
  ((BitVec.ofNat_toNat 64 _).trans (BitVec.setWidth_eq _)).symm

theorem ofNat_le_ofNat {x y : ℕ} (hx : x < 2 ^ 64) (hy : y < 2 ^ 64) :
    BitVec.ofNat 64 x ≤ BitVec.ofNat 64 y ↔ x ≤ y := by
  rw [BitVec.le_def, BitVec.toNat_ofNat, BitVec.toNat_ofNat, Nat.mod_eq_of_lt hx,
    Nat.mod_eq_of_lt hy]

/-- One round of the loop at a free block: it is taken when it fits, made larger when
it is the last of the heap, and skipped otherwise. -/
theorem memalignBlock_eq {s : TinyMalloc σ} {pre post : List Block} {size r : ℕ} (frame : Addr)
    {align : BitVec 64} (nextfree : Fle) (again : TinyMalloc σ → Option (Addr × TinyMalloc σ))
    (h : Represents start s (pre ++ ⟨size, none⟩ :: post))
    (hwrap : r + gapAt align (start.base + total pre) < 2 ^ 64) :
    let a := start.base + total pre
    let g := gapAt align a
    memalignBlock frame align (BitVec.ofNat 64 r) nextfree (BitVec.ofNat 64 a)
        (BitVec.ofNat 64 size) again s =
      if r + g ≤ size then
        some (memalignCarve (BitVec.ofNat 64 r) nextfree (BitVec.ofNat 64 a) (BitVec.ofNat 64 size)
          (BitVec.ofNat 64 g) s)
      else if post = [] then
        if s.canAlloc frame (BitVec.ofNat 64 (g + r - size)) then
          some (memalignCarve (BitVec.ofNat 64 r) nextfree (BitVec.ofNat 64 a)
            (BitVec.ofNat 64 (g + r)) (BitVec.ofNat 64 g)
            (({ s with mallocEnd := BitVec.ofNat 64 (a + (g + r)) } : TinyMalloc σ).setSize
              (BitVec.ofNat 64 a) (BitVec.ofNat 64 (g + r))))
        else
          some (0#64, s)
      else
        again s := by
  intro a g
  have hat := h.atFree
  have hlast := h.last_iff
  have hbelow := h.below
  have hwrap' : r + g < 2 ^ 64 := hwrap
  simp only [total_append, total_cons] at hbelow
  -- no sum wraps here, and the tests of the code are those on the numbers
  have hneed : BitVec.ofNat 64 r + BitVec.ofNat 64 g = BitVec.ofNat 64 (r + g) :=
    (BitVec.ofNat_add _ _).symm
  have hneed' : BitVec.ofNat 64 g + BitVec.ofNat 64 r = BitVec.ofNat 64 (g + r) :=
    (BitVec.ofNat_add _ _).symm
  have hfit := ofNat_le_ofNat (x := r + g) (y := size) hwrap' (by omega)
  have hshort := ofNat_lt_ofNat (x := size) (y := r + g) (by omega) hwrap'
  unfold memalignBlock
  dsimp only
  rw [ofNat_gapAt align a, hneed, hneed', hat.header]
  rw [hat.header] at hlast
  by_cases hfits : r + g ≤ size
  · rw [if_pos hfits, if_neg fun hcond => absurd (hshort.1 hcond.2.1) (Nat.not_lt.2 hfits),
      if_pos (hfit.2 hfits)]
  · rw [if_neg hfits]
    by_cases hpost : post = []
    · have hcond := hlast.2 hpost
      have hgrown : BitVec.ofNat 64 (r + g) ≤ BitVec.ofNat 64 (g + r) :=
        (ofNat_le_ofNat hwrap' (by omega)).2 (by omega)
      have hsub : BitVec.ofNat 64 (g + r) - BitVec.ofNat 64 size =
          BitVec.ofNat 64 (g + r - size) := ofNat_sub_ofNat (by omega) (by omega)
      have hend : BitVec.ofNat 64 a + BitVec.ofNat 64 g + BitVec.ofNat 64 r =
          BitVec.ofNat 64 (a + (g + r)) := by
        rw [BitVec.ofNat_add a, BitVec.ofNat_add g, BitVec.add_assoc]
      rw [if_pos hpost, if_pos ⟨hcond.1, hshort.2 (by omega), hcond.2⟩, hsub, if_pos hgrown, hend]
      cases s.canAlloc frame (BitVec.ofNat 64 (g + r - size))
      · rfl
      · rfl
    · rw [if_neg hpost, if_neg fun hcond => hpost (hlast.1 ⟨hcond.1, hcond.2.2⟩),
        if_neg fun hle => hfits (hfit.1 hle)]

section Outcome

variable {s : TinyMalloc σ} {pre post : List Block} {size r n k : ℕ} {frame : Addr}
  {align : BitVec 64}

theorem LastUsed.not_free {bs : List Block} {size : ℕ} (h : LastUsed (bs ++ [⟨size, none⟩])) :
    False :=
  h ⟨size, none⟩ (by simp) rfl

/-- Growing to the end of a row of blocks that are too small. -/
theorem carve_outcome (hk : k < 64) (halign : align = BitVec.ofNat 64 (2 ^ k))
    (h : Represents start s (pre ++ ⟨size, none⟩ :: post)) (hr : 16 ≤ r) (hr8 : r % 8 = 0)
    (hn : n + 8 ≤ r) (hfits : r + gapAt align (start.base + total pre) ≤ size) :
    let a := start.base + total pre
    let result := memalignCarve (BitVec.ofNat 64 r) (link start pre) (BitVec.ofNat 64 a)
      (BitVec.ofNat 64 size) (BitVec.ofNat 64 (gapAt align a)) s
    (∃ bs', Handed start s result.2 (pre ++ ⟨size, none⟩ :: post) bs' result.1 n) ∧
      2 ^ k ∣ result.1.toNat ∧ Writes s result.2 s.mallocEnd.toNat ∧
      result.2.mallocEnd = s.mallocEnd := by
  intro a result
  have hbase := start.aligned
  have hbelow := h.below
  obtain ⟨hpre, -, -, -, -⟩ := row_free.1 h.row
  have hpre8 := total_aligned hpre.ok
  have ha8 : a % 8 = 0 := by
    show (start.addr.toNat + total pre) % 8 = 0
    omega
  have hgap : Gap a k (gapAt align a) := by
    unfold gapAt
    rw [halign]
    exact (beforeSize_gap ha8 hk).1
  simp only [total_append, total_cons] at hbelow
  have hfits' : r + gapAt align a ≤ size := hfits
  have hend' : a + size + total post + 16 ≤ 2 ^ 64 := by
    show start.base + total pre + size + total post + 16 ≤ 2 ^ 64
    omega
  obtain ⟨hp, ⟨bs', hhanded⟩, hw, hend⟩ := memalignCarve_spec h hgap hr hr8 hn hfits
  have hp' : result.1 = BitVec.ofNat 64 (a + gapAt align a + 8) := hp
  refine ⟨⟨bs', ?_⟩, ?_, hw, hend⟩
  · rw [hp']
    exact hhanded
  · rw [hp', BitVec.toNat_ofNat, Nat.mod_eq_of_lt (by omega)]
    exact hgap.aligned

/-- The last free block of the heap, too small, is made larger and used. -/
theorem extend_outcome (hk : k < 64) (halign : align = BitVec.ofNat 64 (2 ^ k))
    (h : Represents start s (pre ++ [⟨size, none⟩])) (hr : 16 ≤ r) (hr8 : r % 8 = 0)
    (hn : n + 8 ≤ r) (hroom : start.base + total pre +
      (gapAt align (start.base + total pre) + r) + 16 ≤ 2 ^ 64) :
    let a := start.base + total pre
    let g := gapAt align a
    let s1 := ({ s with mallocEnd := BitVec.ofNat 64 (a + (g + r)) } : TinyMalloc σ).setSize
      (BitVec.ofNat 64 a) (BitVec.ofNat 64 (g + r))
    let result := memalignCarve (BitVec.ofNat 64 r) (link start pre) (BitVec.ofNat 64 a)
      (BitVec.ofNat 64 (g + r)) (BitVec.ofNat 64 g) s1
    (∃ bs', Handed start s result.2 (pre ++ [⟨size, none⟩]) bs' result.1 n) ∧
      2 ^ k ∣ result.1.toNat ∧ Writes s result.2 (max s.mallocEnd.toNat (a + g + r)) ∧
      result.2.mallocEnd.toNat = a + g + r := by
  intro a g s1 result
  have hbase := start.aligned
  obtain ⟨hpre, -, -, -, -⟩ := row_free.1 h.row
  have hpre8 := total_aligned hpre.ok
  have ha8 : a % 8 = 0 := by
    show (start.addr.toNat + total pre) % 8 = 0
    omega
  have hgap : Gap a k g := by
    show Gap a k (beforeSize _ _).toNat
    rw [halign]
    exact (beforeSize_gap ha8 hk).1
  have hg8 := hgap.words
  have hroom' : a + (g + r) + 16 ≤ 2 ^ 64 := hroom
  -- the block is made larger first, and carved then as one that fits
  obtain ⟨h1, hkept1, hw1⟩ := extendFree h (m := g + r) (by omega) (by omega) hroom
  have hfits : r + gapAt align (start.base + total pre) ≤ g + r := (Nat.add_comm r _).le
  obtain ⟨⟨bs', hhanded⟩, haligned, hw, hend⟩ :=
    carve_outcome hk halign h1 hr hr8 hn hfits
  have htop1 : s1.mallocEnd.toNat = a + g + r := by
    show (BitVec.ofNat 64 (a + (g + r))).toNat = _
    rw [BitVec.toNat_ofNat]
    omega
  refine ⟨⟨bs', hhanded.after_free _ hkept1 (by simp) (by simp)⟩, haligned, ?_, ?_⟩
  · refine (hw1.mono (le_max_left _ _)).trans (hw.mono ?_)
    exact htop1.le.trans (le_max_right _ _)
  · rw [← htop1]
    exact congrArg BitVec.toNat hend

/-- At the end of a free list whose last block does not reach the end of the heap. -/
theorem grow_outcome (hk : k < 64) (halign : align = BitVec.ofNat 64 (2 ^ k))
    {again : TinyMalloc σ → Option (Addr × TinyMalloc σ)}
    (h : Represents start s pre) (hr : 16 ≤ r) (hr8 : r % 8 = 0) (hn : n + 8 ≤ r)
    (hnofit : NoFit align r start.base pre) (hlast : LastUsed pre) {g m : ℕ}
    (hg : gapAt align (start.base + total pre) = g)
    (hm : firstNeed align r (start.base + total pre) = m) (hwrap : r + g < 2 ^ 64)
    (hcan : s.canAlloc frame (BitVec.ofNat 64 m) = true)
    (hroom : s.mallocEnd.toNat + 32 ≤ frame.toNat ∨
      ∀ e, GrowsTo start s pre align r frame e → e + 16 ≤ 2 ^ 64) :
    let block := BitVec.ofNat 64 (start.base + total pre)
    let s1 := ((({ s with mallocEnd := BitVec.ofNat 64 (start.base + total pre + m) } :
      TinyMalloc σ).assign (link start pre) block).setSize block (BitVec.ofNat 64 m)).setNext
        block 0#64
    ∃ result, memalignBlock frame align (BitVec.ofNat 64 r) (link start pre) block
        (BitVec.ofNat 64 m) again s1 = some result ∧
      AlignOutcome start s pre align k r n frame result := by
  intro block s1
  have hbase := start.aligned
  have hpre8 := total_aligned h.row.ok
  have htop := h.top_toNat
  have ha8 : (start.base + total pre) % 8 = 0 := by
    show (start.addr.toNat + total pre) % 8 = 0
    omega
  obtain ⟨hgap, hmg, hm8, -⟩ := beforeSize_gap ha8 hk
  rw [← halign] at hgap hmg hm8
  have hmle : m ≤ r + g := by
    rw [← hm, ← hg]
    exact Nat.add_le_add_left hmg r
  have hmr : r ≤ m := by
    rw [← hm]
    exact Nat.le_add_right _ _
  have hmwords : m % 8 = 0 := by
    rw [← hm]
    show (r + (mAlign _ align).toNat) % 8 = 0
    omega
  have hgrows : GrowsTo start s pre align r frame (start.base + total pre + g + r) := by
    refine ⟨hnofit, .inr ⟨hlast, ?_, ?_⟩⟩
    · rw [hm]
      exact hcan
    · rw [hg]
  -- the first step stays inside the address space
  have hroom1 : start.base + total pre + m + 16 ≤ 2 ^ 64 := by
    rcases hroom with hframe | hroom
    · have := room_of_frame hframe (show m < 2 ^ 64 by omega) m (le_refl m) hcan
      rwa [htop] at this
    · have := hroom _ hgrows
      omega
  obtain ⟨h1, hkept1, hw1⟩ := growFree h hlast (by omega) hmwords hroom1
  have htop1 : s1.mallocEnd.toNat = start.base + total pre + m := by
    refine h1.top_toNat.trans ?_
    simp only [total_append, total_cons, total_nil]
    omega
  have hround := memalignBlock_eq frame (link start pre) again h1 (by rw [hg]; exact hwrap)
  dsimp only at hround
  rw [hg] at hround
  by_cases hfits : r + g ≤ m
  · -- the space appended is what was needed
    rw [if_pos hfits] at hround
    refine ⟨_, hround, ?_⟩
    obtain ⟨⟨bs', hhanded⟩, haligned, hw, hend⟩ :=
      carve_outcome hk halign h1 hr hr8 hn (by rw [hg]; exact hfits)
    rw [hg] at hhanded haligned hw hend
    have hend' := congrArg BitVec.toNat hend
    refine .handed bs' ?_ (fun hlate => ?_) haligned ?_ (.inr ⟨_, hgrows, ?_, ?_⟩)
    · have := hhanded.after_free [] hkept1 nofun (by simp)
      rwa [List.append_nil] at this
    · have hshort := hlate.short
      rw [hm, hg] at hshort
      exact absurd hshort (Nat.not_lt.2 hfits)
    · exact Writes.mono (hw1.trans hw) hend'.ge
    · refine hend'.trans (htop1.trans ?_)
      omega
    · omega
  · rw [if_neg hfits, if_pos rfl] at hround
    have hsecond : (s1.canAlloc frame (BitVec.ofNat 64 (g + r - m))) =
        ({ s with mallocEnd := BitVec.ofNat 64 (start.base + total pre + m) } :
          TinyMalloc σ).canAlloc frame (BitVec.ofNat 64 (g + r - m)) := by
      have hend : s1.mallocEnd = BitVec.ofNat 64 (start.base + total pre + m) := by
        show (TinyMalloc.setNext (TinyMalloc.setSize (TinyMalloc.assign _ (link start pre) block)
          block _) block 0#64).mallocEnd = _
        rw [setNext_mallocEnd, setSize_mallocEnd, assign_mallocEnd]
      unfold canAlloc
      rw [hend]
    cases hcan2 : s1.canAlloc frame (BitVec.ofNat 64 (g + r - m))
    · rw [if_neg (by rw [hcan2]; exact Bool.false_ne_true)] at hround
      refine ⟨_, hround, ?_⟩
      -- the second request is refused, with the new block in the free list
      refine .late ⟨hnofit, hlast, ?_, ?_, ?_⟩ rfl ?_ hkept1 hw1
      · rw [hm]
        exact hcan
      · rw [hm, hg]
        exact Nat.not_le.1 hfits
      · rw [hm, hg, ← hsecond]
        exact hcan2
      · rw [hm]
        exact h1
    · have hroom2 : start.base + total pre + (g + r) + 16 ≤ 2 ^ 64 := by
        rcases hroom with hframe | hroom
        · have hframe1 : s1.mallocEnd.toNat + 32 ≤ frame.toNat := by
            have hreq := BitVec.le_def.1 (of_decide_eq_true hcan)
            have hf := frame.isLt
            have h32 : minimumGap.toNat = 32 := rfl
            rw [BitVec.toNat_ofNat, Nat.mod_eq_of_lt (show m < 2 ^ 64 by omega), BitVec.toNat_sub,
              BitVec.toNat_sub, h32] at hreq
            rw [htop1]
            omega
          have hgrow := room_of_frame hframe1 (show g + r - m < 2 ^ 64 by omega) _ (le_refl _) hcan2
          rw [htop1] at hgrow
          omega
        · have := hroom _ hgrows
          omega
      obtain ⟨⟨bs', hhanded⟩, haligned, hw, hend⟩ :=
        extend_outcome hk halign h1 hr hr8 hn (by rw [hg]; exact hroom2)
      rw [hg] at hhanded haligned hw hend
      rw [if_pos hcan2] at hround
      refine ⟨_, hround, ?_⟩
      refine .handed bs' ?_ (fun hlate => ?_) haligned ?_ (.inr ⟨_, hgrows, hend, ?_⟩)
      · have := hhanded.after_free [] hkept1 nofun (by simp)
        rwa [List.append_nil] at this
      · have hrefused := hlate.second
        rw [hm, hg, ← hsecond] at hrefused
        exact absurd (hrefused.symm.trans hcan2) Bool.false_ne_true
      · refine Writes.mono ((hw1.mono ?_).trans (hw.mono ?_)) hend.ge
        · rw [htop1]
          omega
        · rw [htop1]
          omega
      · omega

end Outcome

/-- The loop after the blocks `pre`, none of which has room: the induction is on the
blocks it has not passed. -/
theorem memalignLoop_spec {s : TinyMalloc σ} (pre : List Block) {post : List Block} {r n k fuel : ℕ}
    {frame : Addr} {align : BitVec 64} (hk : k < 64) (halign : align = BitVec.ofNat 64 (2 ^ k))
    (h : Represents start s (pre ++ post)) (hr : 16 ≤ r) (hr8 : r % 8 = 0) (hn : n + 8 ≤ r)
    (hskip : NoFit align r start.base pre) (hlast : post = [] → LastUsed pre)
    (hwrap : Unwrapped s frame align r (start.base + total pre) post)
    (hroom : s.mallocEnd.toNat + 32 ≤ frame.toNat ∨
      ∀ e, GrowsTo start s (pre ++ post) align r frame e → e + 16 ≤ 2 ^ 64)
    (hfuel : post.length < fuel) :
    ∃ result, memalignLoop frame align (BitVec.ofNat 64 r) fuel (link start pre) s = some result ∧
      AlignOutcome start s (pre ++ post) align k r n frame result := by
  induction post generalizing pre fuel with
  | nil =>
    obtain ⟨fuel, rfl⟩ : ∃ f, fuel = f + 1 := ⟨fuel - 1, by simp at hfuel; omega⟩
    rw [List.append_nil] at h hroom ⊢
    have hderef := deref_link h.laid h.row.ok h.lt.le
    have hneed : BitVec.ofNat 64 r + mAlign (s.mallocEnd + 8#64) align =
        BitVec.ofNat 64 (firstNeed align r (start.base + total pre)) := by
      unfold firstNeed
      rw [h.top, BitVec.ofNat_add r, BitVec.ofNat_toNat, BitVec.setWidth_eq]
    unfold memalignLoop
    rw [if_pos hderef]
    dsimp only
    rw [hneed]
    cases hcan : s.canAlloc frame (BitVec.ofNat 64 (firstNeed align r (start.base + total pre)))
    · refine ⟨_, rfl, .refused rfl fun hlate => ?_⟩
      exact absurd (hcan.symm.trans hlate.first) Bool.false_ne_true
    · rw [h.top, ← BitVec.ofNat_add]
      exact grow_outcome hk halign h hr hr8 hn hskip (hlast rfl) rfl rfl (hwrap hcan) hcan hroom
  | cons b post ih =>
    obtain ⟨size, use⟩ := b
    rcases use with _ | m
    · obtain ⟨fuel, rfl⟩ : ∃ f, fuel = f + 1 := ⟨fuel - 1, by simp at hfuel; omega⟩
      obtain ⟨hwrap, hrest⟩ := hwrap
      have hat := h.atFree
      have htop := h.top_toNat
      have hbelow := h.below
      simp only [total_append, total_cons] at htop hbelow
      have hround := memalignBlock_eq frame (link start pre) (memalignLoop frame align
        (BitVec.ofNat 64 r) fuel (.next (BitVec.ofNat 64 (start.base + total pre)))) h hwrap
      dsimp only at hround
      unfold memalignLoop
      dsimp only
      rw [hat.pointer, if_neg hat.nonnull, hat.header, hround]
      by_cases hfits : r + gapAt align (start.base + total pre) ≤ size
      · obtain ⟨⟨bs', hhanded⟩, haligned, hw, hend⟩ :=
          carve_outcome hk halign h hr hr8 hn hfits
        rw [if_pos hfits]
        refine ⟨_, rfl, .handed bs' hhanded (fun hlate => ?_) haligned ?_ (.inl hend)⟩
        · exact absurd ((noFit_append.1 hlate.noFit).2.1 rfl) (Nat.not_lt.2 hfits)
        · exact hw.mono (congrArg BitVec.toNat hend).ge
      · rw [if_neg hfits]
        by_cases hpost : post = []
        · subst hpost
          rw [if_pos rfl]
          rw [total_nil] at htop hbelow
          cases hcan : s.canAlloc frame
            (BitVec.ofNat 64 (gapAt align (start.base + total pre) + r - size))
          · exact ⟨_, rfl, .refused rfl fun hlate => LastUsed.not_free hlate.last⟩
          · have hgrows : GrowsTo start s (pre ++ [⟨size, none⟩]) align r frame
                (start.base + total pre + gapAt align (start.base + total pre) + r) := by
              refine ⟨noFit_append.2 ⟨hskip, fun _ => Nat.not_le.1 hfits, trivial⟩, .inl ?_⟩
              exact ⟨pre, size, rfl, hcan, rfl⟩
            have hgrow : start.base + total pre + (gapAt align (start.base + total pre) + r) + 16 ≤
                2 ^ 64 := by
              rcases hroom with hframe | hroom
              · have := room_of_frame hframe
                  (show gapAt align (start.base + total pre) + r - size < 2 ^ 64 by omega) _
                  (le_refl _) hcan
                omega
              · have := hroom _ hgrows
                omega
            obtain ⟨⟨bs', hhanded⟩, haligned, hw, hend⟩ := extend_outcome hk halign h hr hr8 hn hgrow
            rw [if_pos rfl]
            refine ⟨_, rfl, .handed bs' hhanded (fun hlate => LastUsed.not_free hlate.last) haligned
              (hw.mono ?_) (.inr ⟨_, hgrows, hend, by omega⟩)⟩
            rw [hend]
            omega
        · rw [if_neg hpost, ← link_free pre size]
          have hassoc : pre ++ ⟨size, none⟩ :: post = (pre ++ [⟨size, none⟩]) ++ post := by simp
          rw [hassoc] at h hroom ⊢
          refine ih _ h ?_ (fun hnil => absurd hnil hpost) ?_ hroom (by simp at hfuel; omega)
          · exact noFit_append.2 ⟨hskip, fun _ => Nat.not_le.1 hfits, trivial⟩
          · have := hrest (Nat.not_le.1 hfits) hpost
            simpa [Nat.add_assoc] using this
    · -- a block handed out: the link stays the same
      have hassoc : pre ++ ⟨size, some m⟩ :: post = (pre ++ [⟨size, some m⟩]) ++ post := by simp
      rw [hassoc] at h hroom ⊢
      rw [← link_live pre size m]
      refine ih _ h ?_ (fun _ => lastUsed_append_used pre size m) ?_ hroom (by simp at hfuel; omega)
      · exact noFit_append.2 ⟨hskip, fun hfree => absurd hfree (Option.some_ne_none m), trivial⟩
      · simpa [Unwrapped, Nat.add_assoc] using hwrap

/-- **`memalign`** on a heap, when its sums do not wrap, returns null or an aligned
block with room for the request. -/
theorem memalign_spec {s : TinyMalloc σ} {bs : List Block} {align sz : BitVec 64} {frame : Addr}
    {k : ℕ} (hk : k < 64) (halign : align = BitVec.ofNat 64 (2 ^ k)) (h : Represents start s bs)
    (hsz : sz.toNat + 16 ≤ 2 ^ 64)
    (hwrap : Unwrapped s frame align (requestSize sz.toNat) start.base bs)
    (hroom : s.mallocEnd.toNat + 32 ≤ frame.toNat ∨
      ∀ e, GrowsTo start s bs align (requestSize sz.toNat) frame e → e + 16 ≤ 2 ^ 64) :
    ∃ result, memalign frame align sz s = some result ∧
      AlignOutcome start s bs align k (requestSize sz.toNat) sz.toNat frame result := by
  have hsize := requestSize_room sz.toNat
  have hwrap' : Unwrapped s frame align (requestSize sz.toNat) (start.base + total []) bs := by
    rw [total_nil, Nat.add_zero]
    exact hwrap
  unfold memalign
  rw [badAlign_eq_false.2 ⟨k, hk, halign⟩, if_neg Bool.false_ne_true, realSize_eq hsz]
  exact memalignLoop_spec [] hk halign h hsize.1 (requestSize_aligned _) hsize.2 trivial
    (fun _ => lastUsed_nil) hwrap' hroom h.length_lt

end TinyMalloc

end KeystoneSdk
