/-
The abstract address space of an enclave under construction.

The loader's purpose is to build a finite map from 27-bit virtual page numbers
to pages, out of pages popped from two free lists.  An `AddressSpace` is that
map together with the directory of page tables, where a page is named by its
position in its buffer and not by an address: nothing here depends on where
the buffers are.

* `touch`, `addLeaf`, `fill` — what a walk, a new mapping and a data write do;
* `WF` — frames are never shared, and every table hangs below the root;
* `touch_wf`, `addLeaf_wf`, `fill_wf` — the operations keep it;
* `Request`, `Request.apply` — the loader's calls and their abstract meaning.
-/
import KeystoneSdk.HostLoader

open ByteMemory

namespace KeystoneSdk

/-- A page frame, by its position in the EPM or in the UTM buffer. -/
inductive Frame
  | epm (k : ℕ)
  | utm (j : ℕ)
  deriving DecidableEq

/-- A mapped page: its frame, the flags of its entry, and what it holds. -/
structure Leaf where
  frame : Frame
  flags : BitVec 64
  bytes : ℕ → Byte

/-- Page tables and mapped pages.  `tab h q` is the EPM page that holds the
table at height `h` (2 for the root, 0 for a table of leaves) whose entry `i`
translates the page number prefix `512 * q + i`. -/
structure AddressSpace where
  tab : ℕ → ℕ → Option ℕ
  leaf : ℕ → Option Leaf
  epmUsed : ℕ
  utmUsed : ℕ

namespace AddressSpace

/-- The root table alone. -/
def empty : AddressSpace where
  tab := fun h q => if h = 2 ∧ q = 0 then some 0 else none
  leaf := fun _ => none
  epmUsed := 1
  utmUsed := 0

/-- A frame that has been popped from its free list. -/
def Holds (a : AddressSpace) : Frame → Prop
  | .epm k => k < a.epmUsed
  | .utm j => j < a.utmUsed

/-- Take the next EPM page as the table at height `h` with prefix `q`. -/
def addTable (a : AddressSpace) (h q : ℕ) : AddressSpace :=
  { a with
    tab := fun h' q' => if h' = h ∧ q' = q then some a.epmUsed else a.tab h' q'
    epmUsed := a.epmUsed + 1 }

def ensureTable (a : AddressSpace) (h q : ℕ) : AddressSpace :=
  if (a.tab h q).isSome then a else a.addTable h q

/-- What a creating walk for page number `v` leaves behind. -/
def touch (a : AddressSpace) (v : ℕ) : AddressSpace :=
  (a.ensureTable 1 (v / 262144)).ensureTable 0 (v / 512)

/-- The frame a free list hands out next. -/
def next (a : AddressSpace) : FreeList → Frame
  | .epm => .epm a.epmUsed
  | .utm => .utm a.utmUsed

/-- Map page number `v` to the next frame of a free list; a fresh frame holds
zeros. -/
def addLeaf (a : AddressSpace) (v : ℕ) (l : FreeList) (flags : BitVec 64) : AddressSpace :=
  { a with
    leaf := fun v' => if v' = v then some ⟨a.next l, flags, fun _ => 0⟩ else a.leaf v'
    epmUsed := match l with
      | .epm => a.epmUsed + 1
      | .utm => a.epmUsed
    utmUsed := match l with
      | .epm => a.utmUsed
      | .utm => a.utmUsed + 1 }

/-- Write the page mapped at `v`. -/
def fill (a : AddressSpace) (v : ℕ) (f : ℕ → Byte) : AddressSpace :=
  { a with leaf := fun v' =>
      if v' = v then (a.leaf v).map fun lf => { lf with bytes := f } else a.leaf v' }

/-! ### Well-formedness -/

/-- No frame has two uses, and every table and every mapped page hangs below
the root. -/
structure WF (a : AddressSpace) : Prop where
  root : a.tab 2 0 = some 0
  tab_range : ∀ {h q k}, a.tab h q = some k → h ≤ 2 ∧ q < 512 ^ (2 - h)
  tab_lt : ∀ {h q k}, a.tab h q = some k → k < a.epmUsed
  tab_inj : ∀ {h q h' q' k}, a.tab h q = some k → a.tab h' q' = some k → h = h' ∧ q = q'
  tab_parent : ∀ {h q k}, a.tab h q = some k → h < 2 → ∃ k', a.tab (h + 1) (q / 512) = some k'
  leaf_range : ∀ {v f}, a.leaf v = some f → v < 134217728
  leaf_held : ∀ {v f}, a.leaf v = some f → a.Holds f.frame
  leaf_inj : ∀ {v f v' f'}, a.leaf v = some f → a.leaf v' = some f' →
    f.frame = f'.frame → v = v'
  leaf_ne_tab : ∀ {v f h q k}, a.leaf v = some f → a.tab h q = some k → f.frame ≠ .epm k
  leaf_parent : ∀ {v f}, a.leaf v = some f → ∃ k, a.tab 0 (v / 512) = some k
  leaf_flags : ∀ {v f}, a.leaf v = some f → f.flags.toNat < 1024
  epm_used : ∀ {k}, k < a.epmUsed →
    (∃ h q, a.tab h q = some k) ∨ ∃ v f, a.leaf v = some f ∧ f.frame = .epm k

theorem empty_wf : empty.WF where
  root := rfl
  tab_range := by
    intro h q k hk
    simp only [empty] at hk
    split at hk
    · rename_i hc
      obtain ⟨rfl, rfl⟩ := hc
      exact ⟨le_refl _, by norm_num⟩
    · cases hk
  tab_lt := by
    intro h q k hk
    simp only [empty] at hk ⊢
    split at hk
    · cases hk
      exact Nat.one_pos
    · cases hk
  tab_inj := by
    intro h q h' q' k hk hk'
    simp only [empty] at hk hk'
    split at hk <;> split at hk' <;> first | (cases hk; done) | (cases hk'; done) | omega
  tab_parent := by
    intro h q k hk hlt
    simp only [empty] at hk
    rw [if_neg (by omega)] at hk
    cases hk
  leaf_range := by rintro v f ⟨⟩
  leaf_held := by rintro v f ⟨⟩
  leaf_inj := by rintro v f v' f' ⟨⟩
  leaf_ne_tab := by rintro v f h q k ⟨⟩
  leaf_parent := by rintro v f ⟨⟩
  leaf_flags := by rintro v f ⟨⟩
  epm_used := by
    intro k hk
    obtain rfl : k = 0 := Nat.lt_one_iff.mp hk
    exact Or.inl ⟨2, 0, rfl⟩

/-! ### Tables -/

section Tables

variable {a : AddressSpace} {h q : ℕ}

theorem addTable_tab_self : (a.addTable h q).tab h q = some a.epmUsed := by
  simp [addTable]

theorem addTable_tab_of_ne {h' q' : ℕ} (hne : ¬ (h' = h ∧ q' = q)) :
    (a.addTable h q).tab h' q' = a.tab h' q' := by
  simp only [addTable]
  rw [if_neg hne]

/-- A table after `addTable` is the new one or an old one. -/
theorem addTable_tab_cases {h' q' k : ℕ} (hk : (a.addTable h q).tab h' q' = some k) :
    (h' = h ∧ q' = q ∧ k = a.epmUsed) ∨ a.tab h' q' = some k := by
  by_cases hc : h' = h ∧ q' = q
  · obtain ⟨rfl, rfl⟩ := hc
    rw [addTable_tab_self] at hk
    exact Or.inl ⟨rfl, rfl, (Option.some.inj hk).symm⟩
  · rw [addTable_tab_of_ne hc] at hk
    exact Or.inr hk

/-- Old tables stay where they are. -/
theorem addTable_tab_mono {h' q' k : ℕ} (hnone : a.tab h q = none) (hk : a.tab h' q' = some k) :
    (a.addTable h q).tab h' q' = some k := by
  rw [addTable_tab_of_ne, hk]
  rintro ⟨rfl, rfl⟩
  rw [hnone] at hk
  cases hk

theorem addTable_wf (hw : a.WF) (hh : h < 2) (hq : q < 512 ^ (2 - h)) (hnone : a.tab h q = none)
    (hpar : ∃ k, a.tab (h + 1) (q / 512) = some k) : (a.addTable h q).WF where
  root := addTable_tab_mono hnone hw.root
  tab_range := by
    intro h' q' k hk
    rcases addTable_tab_cases hk with ⟨rfl, rfl, _⟩ | hk
    · exact ⟨by omega, hq⟩
    · exact hw.tab_range hk
  tab_lt := by
    intro h' q' k hk
    show k < a.epmUsed + 1
    rcases addTable_tab_cases hk with ⟨_, _, rfl⟩ | hk
    · omega
    · exact Nat.lt_succ_of_lt (hw.tab_lt hk)
  tab_inj := by
    intro h₁ q₁ h₂ q₂ k h1 h2
    -- an old table lies below `epmUsed`, where the new one is
    rcases addTable_tab_cases h1 with ⟨rfl, rfl, hk⟩ | h1
    · rcases addTable_tab_cases h2 with ⟨rfl, rfl, _⟩ | h2
      · exact ⟨rfl, rfl⟩
      · have := hw.tab_lt h2
        omega
    · rcases addTable_tab_cases h2 with ⟨_, _, hk⟩ | h2
      · have := hw.tab_lt h1
        omega
      · exact hw.tab_inj h1 h2
  tab_parent := by
    intro h' q' k hk hlt
    rcases addTable_tab_cases hk with ⟨rfl, rfl, _⟩ | hk
    · -- the new table hangs below the one that was there for it
      obtain ⟨k', hk'⟩ := hpar
      exact ⟨k', addTable_tab_mono hnone hk'⟩
    · obtain ⟨k', hk'⟩ := hw.tab_parent hk hlt
      exact ⟨k', addTable_tab_mono hnone hk'⟩
  leaf_range := hw.leaf_range
  leaf_held := by
    intro v f hf
    have hheld := hw.leaf_held hf
    rcases hfr : f.frame with k | j
    · rw [hfr] at hheld
      exact Nat.lt_succ_of_lt hheld
    · rw [hfr] at hheld
      exact hheld
  leaf_inj := hw.leaf_inj
  leaf_ne_tab := by
    intro v f h' q' k hf hk
    rcases addTable_tab_cases hk with ⟨_, _, rfl⟩ | hk
    · -- the page of the new table has not been popped before
      intro hfr
      have hheld := hw.leaf_held hf
      rw [hfr] at hheld
      exact lt_irrefl _ hheld
    · exact hw.leaf_ne_tab hf hk
  leaf_parent := by
    intro v f hf
    obtain ⟨k, hk⟩ := hw.leaf_parent hf
    exact ⟨k, addTable_tab_mono hnone hk⟩
  leaf_flags := hw.leaf_flags
  epm_used := by
    intro k hk
    rcases Nat.lt_succ_iff_lt_or_eq.mp hk with hk | rfl
    · rcases hw.epm_used hk with ⟨h', q', hk'⟩ | hleaf
      · exact Or.inl ⟨h', q', addTable_tab_mono hnone hk'⟩
      · exact Or.inr hleaf
    · exact Or.inl ⟨h, q, addTable_tab_self⟩

end Tables

/-! ### Walks -/

section Walks

variable {a : AddressSpace}

theorem ensureTable_of_some {h q k : ℕ} (hk : a.tab h q = some k) : a.ensureTable h q = a := by
  rw [ensureTable, if_pos (by rw [hk]; rfl)]

theorem ensureTable_of_none {h q : ℕ} (hk : a.tab h q = none) :
    a.ensureTable h q = a.addTable h q := by
  rw [ensureTable, if_neg (by rw [hk]; simp)]

@[simp] theorem ensureTable_leaf (h q : ℕ) : (a.ensureTable h q).leaf = a.leaf := by
  rw [ensureTable]
  split <;> rfl

@[simp] theorem ensureTable_utmUsed (h q : ℕ) : (a.ensureTable h q).utmUsed = a.utmUsed := by
  rw [ensureTable]
  split <;> rfl

theorem epmUsed_le_ensureTable (h q : ℕ) : a.epmUsed ≤ (a.ensureTable h q).epmUsed := by
  rw [ensureTable]
  split
  · exact le_refl _
  · exact Nat.le_succ _

theorem ensureTable_tab_self (h q : ℕ) : ∃ k, (a.ensureTable h q).tab h q = some k := by
  rcases hk : a.tab h q with _ | k
  · exact ⟨a.epmUsed, by rw [ensureTable_of_none hk, addTable_tab_self]⟩
  · exact ⟨k, by rw [ensureTable_of_some hk, hk]⟩

theorem ensureTable_tab_mono {h q h' q' k : ℕ} (hk : a.tab h' q' = some k) :
    (a.ensureTable h q).tab h' q' = some k := by
  rcases hn : a.tab h q with _ | k'
  · rw [ensureTable_of_none hn]
    exact addTable_tab_mono hn hk
  · rw [ensureTable_of_some hn, hk]

theorem ensureTable_wf (hw : a.WF) {h q : ℕ} (hh : h < 2) (hq : q < 512 ^ (2 - h))
    (hpar : ∃ k, a.tab (h + 1) (q / 512) = some k) : (a.ensureTable h q).WF := by
  rcases hn : a.tab h q with _ | k
  · rw [ensureTable_of_none hn]
    exact addTable_wf hw hh hq hn hpar
  · rw [ensureTable_of_some hn]
    exact hw

@[simp] theorem touch_leaf (v : ℕ) : (a.touch v).leaf = a.leaf := by
  rw [touch, ensureTable_leaf, ensureTable_leaf]

@[simp] theorem touch_utmUsed (v : ℕ) : (a.touch v).utmUsed = a.utmUsed := by
  rw [touch, ensureTable_utmUsed, ensureTable_utmUsed]

theorem epmUsed_le_touch (v : ℕ) : a.epmUsed ≤ (a.touch v).epmUsed :=
  le_trans (epmUsed_le_ensureTable _ _) (epmUsed_le_ensureTable _ _)

theorem touch_tab_mono {v h q k : ℕ} (hk : a.tab h q = some k) : (a.touch v).tab h q = some k :=
  ensureTable_tab_mono (ensureTable_tab_mono hk)

theorem touch_tab_zero (v : ℕ) : ∃ k, (a.touch v).tab 0 (v / 512) = some k :=
  ensureTable_tab_self _ _

theorem touch_wf (hw : a.WF) {v : ℕ} (hv : v < 134217728) : (a.touch v).WF := by
  refine ensureTable_wf (ensureTable_wf hw (by decide) ?_ ?_) (by decide) ?_ ?_
  · norm_num
    omega
  · exact ⟨0, by rw [Nat.div_eq_of_lt (by omega)]; exact hw.root⟩
  · norm_num
    omega
  · rw [show v / 512 / 512 = v / 262144 by omega]
    exact ensureTable_tab_self _ _

/-- A walk for a page whose tables exist changes nothing. -/
theorem touch_eq_self {v k : ℕ} (hw : a.WF) (hk : a.tab 0 (v / 512) = some k) : a.touch v = a := by
  obtain ⟨k', hk'⟩ := hw.tab_parent hk (by decide)
  rw [show v / 512 / 512 = v / 262144 by omega] at hk'
  rw [touch, ensureTable_of_some hk', ensureTable_of_some hk]

end Walks

/-! ### Mapped pages -/

section Leaves

variable {a : AddressSpace} {v : ℕ}

theorem addLeaf_leaf_self (l : FreeList) (flags : BitVec 64) :
    (a.addLeaf v l flags).leaf v = some ⟨a.next l, flags, fun _ => 0⟩ := by
  simp [addLeaf]

theorem addLeaf_leaf_of_ne {v' : ℕ} (hne : v' ≠ v) (l : FreeList) (flags : BitVec 64) :
    (a.addLeaf v l flags).leaf v' = a.leaf v' := by
  simp [addLeaf, hne]

theorem fill_leaf_self {lf : Leaf} (hlf : a.leaf v = some lf) (f : ℕ → Byte) :
    (a.fill v f).leaf v = some { lf with bytes := f } := by
  simp [fill, hlf]

theorem fill_leaf_of_ne {v' : ℕ} (hne : v' ≠ v) (f : ℕ → Byte) :
    (a.fill v f).leaf v' = a.leaf v' := by
  simp [fill, hne]

/-- A mapped page after `fill` has the frame and flags it had before. -/
theorem fill_leaf_cases {f : ℕ → Byte} {v' : ℕ} {lf : Leaf}
    (h : (a.fill v f).leaf v' = some lf) :
    ∃ lf', a.leaf v' = some lf' ∧ lf.frame = lf'.frame ∧ lf.flags = lf'.flags := by
  by_cases hv : v' = v
  · subst hv
    simp only [fill, if_true] at h
    obtain ⟨lf', hlf', rfl⟩ := Option.map_eq_some_iff.mp h
    exact ⟨lf', hlf', rfl, rfl⟩
  · rw [fill_leaf_of_ne hv] at h
    exact ⟨lf, h, rfl, rfl⟩

/-- Old mappings stay. -/
theorem addLeaf_leaf_mono {l : FreeList} {flags : BitVec 64} {v' : ℕ} {lf : Leaf}
    (hnone : a.leaf v = none) (h : a.leaf v' = some lf) :
    (a.addLeaf v l flags).leaf v' = some lf := by
  rw [addLeaf_leaf_of_ne, h]
  rintro rfl
  rw [hnone] at h
  cases h

theorem addLeaf_holds {l : FreeList} {flags : BitVec 64} {fr : Frame} (h : a.Holds fr) :
    (a.addLeaf v l flags).Holds fr := by
  cases fr <;> cases l <;> simp only [Holds, addLeaf] at h ⊢ <;> omega

theorem addLeaf_holds_next (l : FreeList) (flags : BitVec 64) :
    (a.addLeaf v l flags).Holds (a.next l) := by
  cases l <;> simp [Holds, addLeaf, next]

theorem not_holds_next (l : FreeList) : ¬ a.Holds (a.next l) := by
  cases l <;> simp [Holds, next]

theorem addLeaf_leaf_cases {l : FreeList} {flags : BitVec 64} {v' : ℕ} {lf : Leaf}
    (h : (a.addLeaf v l flags).leaf v' = some lf) :
    (v' = v ∧ lf = ⟨a.next l, flags, fun _ => 0⟩) ∨ (v' ≠ v ∧ a.leaf v' = some lf) := by
  by_cases hv : v' = v
  · subst hv
    rw [addLeaf_leaf_self] at h
    exact Or.inl ⟨rfl, (Option.some.inj h).symm⟩
  · rw [addLeaf_leaf_of_ne hv] at h
    exact Or.inr ⟨hv, h⟩

/-- A new mapping keeps the address space well-formed. -/
theorem addLeaf_wf (hw : a.WF) (hv : v < 134217728) {k : ℕ} (hk : a.tab 0 (v / 512) = some k)
    (hnone : a.leaf v = none) (l : FreeList) {flags : BitVec 64} (hf : flags.toNat < 1024) :
    (a.addLeaf v l flags).WF where
  root := hw.root
  tab_range := hw.tab_range
  tab_lt := by
    intro h q k hk
    have := hw.tab_lt hk
    cases l <;> simp only [addLeaf] <;> omega
  tab_inj := hw.tab_inj
  tab_parent := hw.tab_parent
  leaf_range := by
    intro v' lf h
    rcases addLeaf_leaf_cases h with ⟨rfl, _⟩ | ⟨_, h⟩
    · exact hv
    · exact hw.leaf_range h
  leaf_held := by
    intro v' lf h
    rcases addLeaf_leaf_cases h with ⟨_, rfl⟩ | ⟨_, h⟩
    · exact addLeaf_holds_next l flags
    · exact addLeaf_holds (hw.leaf_held h)
  leaf_inj := by
    intro v₁ f₁ v₂ f₂ h1 h2 hfr
    -- the next frame of a list is held by no page that is mapped already
    rcases addLeaf_leaf_cases h1 with ⟨rfl, rfl⟩ | ⟨_, h1⟩
    · rcases addLeaf_leaf_cases h2 with ⟨rfl, _⟩ | ⟨_, h2⟩
      · rfl
      · exact absurd (hfr ▸ hw.leaf_held h2) (not_holds_next l)
    · rcases addLeaf_leaf_cases h2 with ⟨_, rfl⟩ | ⟨_, h2⟩
      · exact absurd (hfr ▸ hw.leaf_held h1) (not_holds_next l)
      · exact hw.leaf_inj h1 h2 hfr
  leaf_ne_tab := by
    intro v' lf h q k h1 h2
    rcases addLeaf_leaf_cases h1 with ⟨_, rfl⟩ | ⟨_, h1⟩
    · -- and by no table
      have hlt := hw.tab_lt h2
      intro hfr
      have hheld : a.Holds (.epm k) := hlt
      rw [← hfr] at hheld
      exact not_holds_next l hheld
    · exact hw.leaf_ne_tab h1 h2
  leaf_parent := by
    intro v' lf h
    rcases addLeaf_leaf_cases h with ⟨rfl, _⟩ | ⟨_, h⟩
    · exact ⟨k, hk⟩
    · exact hw.leaf_parent h
  leaf_flags := by
    intro v' lf h
    rcases addLeaf_leaf_cases h with ⟨_, rfl⟩ | ⟨_, h⟩
    · exact hf
    · exact hw.leaf_flags h
  epm_used := by
    intro k hk
    have hold : k < a.epmUsed →
        (∃ h q, a.tab h q = some k) ∨
          ∃ v' f, (a.addLeaf v l flags).leaf v' = some f ∧ f.frame = .epm k := by
      intro hk
      rcases hw.epm_used hk with htab | ⟨v', f, hl, hf⟩
      · exact Or.inl htab
      · exact Or.inr ⟨v', f, addLeaf_leaf_mono hnone hl, hf⟩
    -- a page popped from the UTM list uses no page of the EPM
    cases l with
    | utm => exact hold hk
    | epm =>
      rcases Nat.lt_succ_iff_lt_or_eq.mp hk with hk | rfl
      · exact hold hk
      · exact Or.inr ⟨v, _, addLeaf_leaf_self _ _, rfl⟩

theorem fill_wf (hw : a.WF) (f : ℕ → Byte) : (a.fill v f).WF where
  root := hw.root
  tab_range := hw.tab_range
  tab_lt := hw.tab_lt
  tab_inj := hw.tab_inj
  tab_parent := hw.tab_parent
  leaf_range := by
    intro v' lf h
    -- every page is an old one with other bytes, in the old frame
    obtain ⟨lf', h', _⟩ := fill_leaf_cases h
    exact hw.leaf_range h'
  leaf_held := by
    intro v' lf h
    obtain ⟨lf', h', hfr, _⟩ := fill_leaf_cases h
    rw [hfr]
    exact hw.leaf_held h'
  leaf_inj := by
    intro v₁ f₁ v₂ f₂ h1 h2 hfr
    obtain ⟨g₁, h1', hfr1, _⟩ := fill_leaf_cases h1
    obtain ⟨g₂, h2', hfr2, _⟩ := fill_leaf_cases h2
    exact hw.leaf_inj h1' h2' (by rw [← hfr1, ← hfr2, hfr])
  leaf_ne_tab := by
    intro v' lf h q k h1 h2
    obtain ⟨g, h1', hfr, _⟩ := fill_leaf_cases h1
    rw [hfr]
    exact hw.leaf_ne_tab h1' h2
  leaf_parent := by
    intro v' lf h
    obtain ⟨g, h', _⟩ := fill_leaf_cases h
    exact hw.leaf_parent h'
  leaf_flags := by
    intro v' lf h
    obtain ⟨g, h', _, hfl⟩ := fill_leaf_cases h
    rw [hfl]
    exact hw.leaf_flags h'
  epm_used := by
    intro k hk
    rcases hw.epm_used hk with htab | ⟨v', lf, hl, hfr⟩
    · exact Or.inl htab
    · refine Or.inr ?_
      by_cases hv : v' = v
      · subst hv
        exact ⟨v', _, fill_leaf_self hl f, hfr⟩
      · exact ⟨v', lf, by rw [fill_leaf_of_ne hv, hl], hfr⟩

end Leaves

end AddressSpace

/-! ### Requests -/

/-- The calls by which the loader changes an address space, and the points at
which it never comes back. -/
inductive Request
  | walk (va : Vaddr)
  | alloc (va : Vaddr) (list : FreeList) (src : HostPtr) (mode : BitVec 32)
  | stop (reason : Stop)

namespace Request

/-- The call itself. -/
def run : Request → Loader PUnit
  | walk va => do
    let _ ← eptWalkCreate va
  | alloc va list src mode => do
    let _ ← allocPage va list src mode
  | stop reason => throw reason

/-- What the call means for the address space. -/
def apply : Request → StopM Stop AddressSpace PUnit
  | walk va => modify fun a => a.touch (vpn va)
  | alloc va list src mode => do
    modify fun a => a.touch (vpn va)
    if ((← get).leaf (vpn va)).isNone then
      modify fun a => a.addLeaf (vpn va) list ((modeFlags mode).getD 0)
      if modeWrites mode then
        if src.readable 4096 then
          modify fun a => a.fill (vpn va) src.bytes
        else
          throw .segfault
  | stop reason => throw reason

/-- A request with a mode that `allocPage` knows. -/
def Valid : Request → Prop
  | alloc _ _ _ mode => (modeFlags mode).isSome
  | _ => True

end Request

theorem modeFlags_lt {mode : BitVec 32} {flags : BitVec 64} (h : modeFlags mode = some flags) :
    flags.toNat < 1024 := by
  rw [modeFlags] at h
  split_ifs at h <;> (cases h; decide)

end KeystoneSdk
