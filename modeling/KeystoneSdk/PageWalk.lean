/-
What `validate_and_hash_epm` visits, and exactly what it rejects.

The recursion over three levels is flattened to the list `entries` of all table
entries in the order of the visit.  The walk is a fold of `walkEntry` over that
list; a rejected entry ends it.

* `validate_follows` — the recursion computes this fold;
* `Tiles`, `entries_tiles` — the visited entries cover the 2^27 virtual page
  numbers one after the other, sign extension at the top included;
* **`validate_rejects_iff`** — a table is rejected iff the visit meets a bad
  entry; an accepted one maps linearly and at most once.
-/
import KeystoneSdk.HashUtil

open ByteMemory

namespace KeystoneSdk

/-! ### The visit -/

/-- A table entry as the walk meets it: the level of its table, the virtual
address it translates, and its value. -/
structure Entry where
  level : ℕ
  va : Vaddr
  pte : Pte

namespace Entry

def phys (e : Entry) : Paddr := ptePhys e.pte

/-- A nonzero entry of the lowest level maps a page. -/
def IsLeaf (e : Entry) : Prop := e.pte ≠ 0#64 ∧ e.level = 1
  deriving Decidable

end Entry

/-- Entry `i` of the table `tb`. -/
def tableEntry (m : Mem) (level : ℕ) (tb : Addr) (vaddr : Vaddr) (i : ℕ) : Entry where
  level := level
  va := walkVpn level vaddr i <<< riscvPgshift
  pte := readLE64 m (tb + 8#64 * BitVec.ofNat 64 i)

/-- All entries from the table `tb` of a level downwards, in the order of the
visit: each nonzero entry is followed by the table it points to. -/
def entries (m : Mem) : ℕ → Addr → Vaddr → List Entry
  | 0, _, _ => []
  | level + 1, tb, vaddr =>
    (List.range 512).flatMap fun i =>
      let e := tableEntry m (level + 1) tb vaddr i
      e :: if e.pte = 0#64 then [] else entries m level e.phys (walkVpn (level + 1) vaddr i)

/-- The step of the walk for one entry, on the flag `contiguous` and the state;
`none` is the jump to `fatal_bail`. -/
def walkEntry (m : Mem) (cargs : KeystoneHashEnclave) (s : Int × WalkState) (e : Entry) :
    Option (Int × WalkState) :=
  if e.pte = 0#64 then some (0, s.2)
  else if ¬ cargs.mapInEpm e.phys ∧ (¬ cargs.mapInUtm e.phys ∨ e.level ≠ 1) then none
  else if e.level = 1 then
    let st := if s.1 = 0 then s.2.hashExtend (leBytes e.va) else s.2
    (validateLeaf m cargs e.pte e.va st).map fun st => (if s.1 = 0 then 1 else s.1, st)
  else some s

/-- The call returned what the fold computed: `-1` exactly if it was ended. -/
structure Follows (r : Int × WalkState) (fold : Option (Int × WalkState)) : Prop where
  ended : fold = none → r.1 = -1
  finished : ∀ s, fold = some s → r = s ∧ s.1 ≠ -1

theorem follows_none {r : Int × WalkState} (h : r.1 = -1) : Follows r none :=
  ⟨fun _ => h, fun _ h => by cases h⟩

theorem follows_some {r : Int × WalkState} (h : r.1 ≠ -1) : Follows r (some r) :=
  ⟨fun h => (by cases h), fun s hs => by cases hs; exact ⟨rfl, h⟩⟩

variable {m : Mem} {cargs : KeystoneHashEnclave}

/-- The loop over table entries is the fold over what each of them visits. -/
theorem validateLoop_follows {entry : ℕ → Int → WalkState → Option Int × WalkState}
    {visit : ℕ → List Entry}
    (hentry : ∀ i c st, c ≠ -1 →
      match entry i c st with
      | (none, _) => (visit i).foldlM (walkEntry m cargs) (c, st) = none
      | (some c', st') => (visit i).foldlM (walkEntry m cargs) (c, st) = some (c', st') ∧ c' ≠ -1)
    (indices : List ℕ) (c : Int) (st : WalkState) (hc : c ≠ -1) :
    Follows (validateLoop entry indices c st)
      ((indices.flatMap visit).foldlM (walkEntry m cargs) (c, st)) := by
  induction indices generalizing c st with
  | nil => exact follows_some hc
  | cons i rest ih =>
    have hi := hentry i c st hc
    rw [List.flatMap_cons, List.foldlM_append, validateLoop]
    rcases hstep : entry i c st with ⟨_ | c', st'⟩ <;> rw [hstep] at hi
    · rw [hi]
      exact follows_none rfl
    · rw [hi.1]
      exact ih c' st' hi.2

/-- The recursion computes the fold over the visit. -/
theorem validate_follows (m : Mem) (cargs : KeystoneHashEnclave) (level : ℕ) (tb : Addr)
    (vaddr : Vaddr) (c : Int) (st : WalkState) (hc : c ≠ -1) :
    Follows (validateAndHashEpm m cargs level tb vaddr c st)
      ((entries m level tb vaddr).foldlM (walkEntry m cargs) (c, st)) := by
  induction level generalizing tb vaddr c st with
  | zero => exact follows_some hc
  | succ level ih =>
    rw [validateAndHashEpm, entries]
    generalize List.range 512 = indices
    refine validateLoop_follows ?_ indices c st hc
    intro i c st hc
    simp only [validateEntry, List.foldlM_cons]
    set e := tableEntry m (level + 1) tb vaddr i with he
    have hpte : readLE64 m (tb + 8#64 * BitVec.ofNat 64 i) = e.pte := rfl
    have hphys : ptePhys e.pte = e.phys := rfl
    have hlevel : e.level = level + 1 := rfl
    have hva : walkVpn (level + 1) vaddr i <<< riscvPgshift = e.va := rfl
    rw [hpte]
    by_cases hzero : e.pte = 0#64
    · simp [walkEntry, hzero]
    rw [if_neg hzero, if_neg hzero, hphys]
    by_cases hout : ¬ cargs.mapInEpm e.phys ∧ (¬ cargs.mapInUtm e.phys ∨ level + 1 ≠ 1)
    · rw [if_pos hout, walkEntry, if_neg hzero, hlevel, if_pos hout]
      rfl
    rw [if_neg hout, walkEntry, if_neg hzero, hlevel, if_neg hout, hva]
    by_cases hleaf : level + 1 = 1
    · -- a leaf: nothing is visited below it
      obtain rfl : level = 0 := by omega
      rw [if_pos hleaf, if_pos hleaf]
      rcases hv : validateLeaf m cargs e.pte e.va
        (if c = 0 then st.hashExtend (leBytes e.va) else st) with _ | st'
      · simp [hv]
      · simp only [hv, Option.map_some, Option.bind_eq_bind, Option.bind_some, entries,
          List.foldlM_nil]
        refine ⟨rfl, ?_⟩
        split
        · decide
        · exact hc
    · -- a table: the call below follows the entries below
      rw [if_neg hleaf, if_neg hleaf, Option.bind_eq_bind, Option.bind_some]
      have hrec := ih e.phys (walkVpn (level + 1) vaddr i) c st hc
      rcases hr : validateAndHashEpm m cargs level e.phys (walkVpn (level + 1) vaddr i) c st
        with ⟨c', st'⟩
      rw [hr] at hrec
      rcases hfold : (entries m level e.phys (walkVpn (level + 1) vaddr i)).foldlM
        (walkEntry m cargs) (c, st) with _ | s' <;> rw [hfold] at hrec
      · obtain rfl : c' = -1 := hrec.ended rfl
        exact rfl
      · obtain ⟨rfl, hne⟩ := hrec.finished _ rfl
        simp only [if_neg hne]
        exact ⟨trivial, hne⟩

/-- The call of `validate_and_hash_enclave`, for a hash that was fed `hashed`. -/
def validateTable (m : Mem) (cargs : KeystoneHashEnclave) (tb : Addr) (hashed : List Byte) :
    Int × WalkState :=
  validateAndHashEpm m cargs riscvPglevelTop tb 0#64 0 ⟨hashed, 0#64, 0#64⟩

/-- All entries of a page table, as `validate_and_hash_enclave` has it walked. -/
def allEntries (m : Mem) (tb : Addr) : List Entry := entries m riscvPglevelTop tb 0#64

theorem validateTable_follows (m : Mem) (cargs : KeystoneHashEnclave) (tb : Addr)
    (hashed : List Byte) :
    Follows (validateTable m cargs tb hashed)
      ((allEntries m tb).foldlM (walkEntry m cargs) (0, ⟨hashed, 0#64, 0#64⟩)) :=
  validate_follows m cargs riscvPglevelTop tb 0#64 0 ⟨hashed, 0#64, 0#64⟩ (by decide)

/-- The nonzero entries of a page table in index order. -/
def visits (m : Mem) (tb : Addr) : List Entry :=
  (allEntries m tb).filter fun e => e.pte ≠ 0#64

/-- The entries that map pages. -/
def leaves (m : Mem) (tb : Addr) : List Entry := (visits m tb).filter fun e => e.IsLeaf

/-! ### Virtual addresses -/

/-- The address of virtual page `k`: 39 bits, the highest one propagated. -/
def pageVa (k : ℕ) : Vaddr :=
  BitVec.ofNat 64 (4096 * k + if k < 2 ^ 26 then 0 else 2 ^ 64 - 2 ^ 39)

theorem pageVa_toNat {k : ℕ} (hk : k < 2 ^ 27) :
    (pageVa k).toNat = 4096 * k + if k < 2 ^ 26 then 0 else 2 ^ 64 - 2 ^ 39 := by
  rw [pageVa, BitVec.toNat_ofNat, Nat.mod_eq_of_lt]
  split <;> omega

/-- Page numbers count the pages in the order of their addresses. -/
theorem pageVa_lt_iff {k k' : ℕ} (hk : k < 2 ^ 27) (hk' : k' < 2 ^ 27) :
    pageVa k < pageVa k' ↔ k < k' := by
  rw [BitVec.lt_def, pageVa_toNat hk, pageVa_toNat hk']
  split <;> split <;> omega

@[simp] theorem vpn_pageVa {k : ℕ} (hk : k < 2 ^ 27) : vpn (pageVa k) = k := by
  rw [vpn, pageVa_toNat hk]
  split <;> omega

/-- One more index below `vaddr`. -/
theorem or_index (vaddr : Vaddr) {i : ℕ} (hi : i < 512) :
    (vaddr <<< riscvPglevelBits) ||| (BitVec.ofNat 64 i &&& riscvPglevelMask) =
      vaddr <<< 9 + BitVec.ofNat 64 i := by
  have hmask : BitVec.ofNat 64 i &&& riscvPglevelMask = BitVec.ofNat 64 i := by
    apply BitVec.eq_of_toNat_eq
    rw [BitVec.toNat_and, show riscvPglevelMask.toNat = 2 ^ 9 - 1 from rfl,
      Nat.and_two_pow_sub_one_eq_mod, BitVec.toNat_ofNat]
    omega
  rw [hmask, riscvPglevelBits, BitVec.add_eq_or_of_and_eq_zero]
  ext j hj
  by_cases h : j < 9
  · simp [h]
  · have hbit : (BitVec.ofNat 64 i)[j] = false := by
      rw [← BitVec.getLsbD_eq_getElem, BitVec.getLsbD_ofNat]
      have hpow : 2 ^ 9 ≤ 2 ^ j := Nat.pow_le_pow_right (by decide) (by omega)
      simp [Nat.testBit_lt_two_pow (lt_of_lt_of_le hi hpow)]
    simp [hbit]

/-- Below `vaddr`, `level` indices translate the pages from number `k` on. -/
def StartsAt (level : ℕ) (vaddr : Vaddr) (k : ℕ) : Prop :=
  ∀ j, j < 512 ^ level →
    vaddr <<< (9 * level + 12) + BitVec.ofNat 64 (4096 * j) = pageVa (k + j)

theorem ofNat_shiftLeft (i n : ℕ) : BitVec.ofNat 64 i <<< n = BitVec.ofNat 64 (i * 2 ^ n) := by
  apply BitVec.eq_of_toNat_eq
  rw [BitVec.toNat_shiftLeft, BitVec.toNat_ofNat, BitVec.toNat_ofNat, Nat.shiftLeft_eq,
    Nat.mod_mul_mod]

/-- The pages below entry `i` of a table that is not the root. -/
theorem StartsAt.walkVpn {level : ℕ} {vaddr : Vaddr} {k : ℕ} (h : StartsAt (level + 1) vaddr k)
    (hlevel : level + 1 ≠ riscvPglevelTop) {i : ℕ} (hi : i < 512) :
    StartsAt level (walkVpn (level + 1) vaddr i) (k + i * 512 ^ level) := by
  intro j hj
  have hj' : i * 512 ^ level + j < 512 ^ (level + 1) := by
    rw [pow_succ]
    nlinarith
  rw [KeystoneSdk.walkVpn, if_neg (fun hc => hlevel hc.1), or_index vaddr hi,
    BitVec.shiftLeft_add_distrib, ← BitVec.shiftLeft_add, BitVec.add_assoc, ofNat_shiftLeft,
    ← BitVec.ofNat_add, Nat.add_assoc k, ← h _ hj', show 9 + (9 * level + 12) =
      9 * (level + 1) + 12 by omega, Nat.mul_add 4096,
    show i * 2 ^ (9 * level + 12) = 4096 * (i * 512 ^ level) by
      rw [pow_add, pow_mul]
      ring]

/-- The pages below entry `i` of the root table. -/
theorem startsAt_root {i : ℕ} (hi : i < 512) :
    StartsAt 2 (walkVpn riscvPglevelTop 0#64 i) (i * 512 ^ 2) := by
  intro j hj
  have htest : i &&& riscvPgtableHighestBit ≠ 0 ↔ 256 ≤ i := by
    rw [show riscvPgtableHighestBit = 2 ^ 8 from rfl, Nat.and_two_pow,
      Nat.testBit_eq_decide_div_mod_eq]
    simp
    omega
  rw [walkVpn, pageVa]
  by_cases hhigh : 256 ≤ i
  · rw [if_pos ⟨rfl, htest.mpr hhigh⟩, or_index _ hi, BitVec.shiftLeft_add_distrib,
      ← BitVec.shiftLeft_add, ofNat_shiftLeft, if_neg (by omega),
      show BitVec.allOnes 64 <<< (9 + (9 * 2 + 12)) = BitVec.ofNat 64 (2 ^ 64 - 2 ^ 39) by decide,
      ← BitVec.ofNat_add, ← BitVec.ofNat_add]
    congr 1
    omega
  · rw [if_neg (fun hc => hhigh (htest.mp hc.2)), or_index _ hi, BitVec.shiftLeft_add_distrib,
      ← BitVec.shiftLeft_add, ofNat_shiftLeft i, if_pos (by omega), BitVec.zero_shiftLeft,
      BitVec.zero_add, ← BitVec.ofNat_add]
    congr 1
    omega

/-! ### The visit in page numbers -/

/-- The entries of a list cover the pages from `k` up to `k'` in order: an empty
entry leaves some unmapped, a leaf maps one, a table leaves them to its
entries. -/
inductive Tiles : ℕ → List Entry → ℕ → Prop
  | nil (k : ℕ) : Tiles k [] k
  | gap {k w k' : ℕ} {e : Entry} {l : List Entry} (hpte : e.pte = 0#64) (hw : 0 < w)
      (hl : Tiles (k + w) l k') : Tiles k (e :: l) k'
  | leaf {k k' : ℕ} {e : Entry} {l : List Entry} (he : e.IsLeaf) (hva : e.va = pageVa k)
      (hl : Tiles (k + 1) l k') : Tiles k (e :: l) k'
  | table {k k' : ℕ} {e : Entry} {l : List Entry} (hpte : e.pte ≠ 0#64) (hlevel : e.level ≠ 1)
      (hl : Tiles k l k') : Tiles k (e :: l) k'

namespace Tiles

theorem append {k k' k'' : ℕ} {l l' : List Entry} (h : Tiles k l k') (h' : Tiles k' l' k'') :
    Tiles k (l ++ l') k'' := by
  induction h with
  | nil k => exact h'
  | gap hpte hw _ ih => exact gap hpte hw (ih h')
  | leaf he hva _ ih => exact leaf he hva (ih h')
  | table hpte hlevel _ ih => exact table hpte hlevel (ih h')

theorem le {k k' : ℕ} {l : List Entry} (h : Tiles k l k') : k ≤ k' := by
  induction h with
  | nil k => exact le_rfl
  | gap _ _ _ ih => omega
  | leaf _ _ _ ih => omega
  | table _ _ _ ih => exact ih

/-- Lists that cover the ranges of consecutive indices cover them together. -/
theorem flatMap_range {f : ℕ → List Entry} {k w : ℕ} (n : ℕ)
    (h : ∀ i, i < n → Tiles (k + i * w) (f i) (k + (i + 1) * w)) :
    Tiles k ((List.range n).flatMap f) (k + n * w) := by
  induction n with
  | zero =>
    rw [Nat.zero_mul]
    exact nil k
  | succ n ih =>
    rw [List.range_succ, List.flatMap_append, List.flatMap_singleton]
    exact (ih fun i hi => h i (by omega)).append (h n (by omega))

/-- A leaf has the address of a page of its range. -/
theorem leaf_va {k k' : ℕ} {l : List Entry} (h : Tiles k l k') {e : Entry} (he : e ∈ l)
    (hleaf : e.IsLeaf) : ∃ n, k ≤ n ∧ n < k' ∧ e.va = pageVa n := by
  induction h with
  | nil k => exact absurd he List.not_mem_nil
  | @gap k w k' e' l hpte hw hl ih =>
    obtain rfl | he := List.mem_cons.mp he
    · exact absurd hpte hleaf.1
    · obtain ⟨n, h1, h2, h3⟩ := ih he
      exact ⟨n, by omega, h2, h3⟩
  | @leaf k k' e' l he' hva hl ih =>
    obtain rfl | he := List.mem_cons.mp he
    · exact ⟨k, le_rfl, by have := hl.le; omega, hva⟩
    · obtain ⟨n, h1, h2, h3⟩ := ih he
      exact ⟨n, by omega, h2, h3⟩
  | @table k k' e' l hpte hlevel hl ih =>
    obtain rfl | he := List.mem_cons.mp he
    · exact absurd hleaf.2 hlevel
    · exact ih he

/-- Leaves are visited in the order of their addresses. -/
theorem sorted {k k' : ℕ} {l : List Entry} (h : Tiles k l k') (hk' : k' ≤ 2 ^ 27) :
    l.Pairwise fun e e' => e.IsLeaf → e'.IsLeaf → e.va < e'.va := by
  induction h with
  | nil k => exact List.Pairwise.nil
  | gap hpte hw hl ih =>
    exact List.pairwise_cons.mpr ⟨fun _ _ he _ => absurd hpte he.1, ih hk'⟩
  | @leaf k k' e l he hva hl ih =>
    refine List.pairwise_cons.mpr ⟨fun e' hmem _ hleaf => ?_, ih hk'⟩
    obtain ⟨n, h1, h2, h3⟩ := hl.leaf_va hmem hleaf
    rw [hva, h3, pageVa_lt_iff (by omega) (by omega)]
    omega
  | table hpte hlevel hl ih =>
    exact List.pairwise_cons.mpr ⟨fun _ _ he _ => absurd he.2 hlevel, ih hk'⟩

end Tiles

/-- What entry `i` and the tables below it cover. -/
theorem tableEntry_tiles {m : Mem} {level : ℕ} {tb : Addr} {vaddr : Vaddr} {i k : ℕ}
    (hk : StartsAt level (walkVpn (level + 1) vaddr i) k)
    (hbelow : level ≠ 0 → ∀ phys, Tiles k (entries m level phys (walkVpn (level + 1) vaddr i))
      (k + 512 ^ level)) :
    Tiles k (tableEntry m (level + 1) tb vaddr i ::
      if (tableEntry m (level + 1) tb vaddr i).pte = 0#64 then []
      else entries m level (tableEntry m (level + 1) tb vaddr i).phys
        (walkVpn (level + 1) vaddr i)) (k + 512 ^ level) := by
  by_cases hzero : (tableEntry m (level + 1) tb vaddr i).pte = 0#64
  · rw [if_pos hzero]
    exact .gap hzero (by positivity) (.nil _)
  rw [if_neg hzero]
  rcases Nat.eq_zero_or_pos level with rfl | hpos
  · refine .leaf ⟨hzero, rfl⟩ ?_ (.nil _)
    have := hk 0 (by decide)
    simpa [tableEntry, riscvPgshift] using this
  · exact .table hzero (show level + 1 ≠ 1 by omega) (hbelow (by omega) _)

/-- The entries of the levels below the root. -/
theorem entries_tiles_below (m : Mem) {level : ℕ} (hlevel : level < riscvPglevelTop) (tb : Addr)
    {vaddr : Vaddr} {k : ℕ} (hk : StartsAt level vaddr k) :
    level ≠ 0 → Tiles k (entries m level tb vaddr) (k + 512 ^ level) := by
  induction level generalizing tb vaddr k with
  | zero => exact fun h => absurd rfl h
  | succ level ih =>
    intro _
    rw [entries, pow_succ, Nat.mul_comm]
    refine Tiles.flatMap_range 512 fun i hi => ?_
    have hk' := hk.walkVpn (by omega) hi
    rw [Nat.add_mul, Nat.one_mul, ← Nat.add_assoc]
    exact tableEntry_tiles hk' fun hne phys => ih (by omega) phys hk' hne

/-- The whole visit covers all page numbers. -/
theorem allEntries_tiles (m : Mem) (tb : Addr) : Tiles 0 (allEntries m tb) (2 ^ 27) := by
  have htiles := Tiles.flatMap_range (f := fun i => tableEntry m 3 tb 0#64 i ::
    if (tableEntry m 3 tb 0#64 i).pte = 0#64 then []
    else entries m 2 (tableEntry m 3 tb 0#64 i).phys (walkVpn 3 0#64 i)) (k := 0) (w := 512 ^ 2) 512
    fun i hi => by
      rw [Nat.zero_add, Nat.zero_add, Nat.add_mul, Nat.one_mul]
      exact tableEntry_tiles (startsAt_root hi) fun hne phys =>
        entries_tiles_below m (by decide) phys (startsAt_root hi) hne
  exact htiles

/-! ### What is rejected -/

/-- `x` lies in `[start, start + size)`. -/
def InSpan (x start size : BitVec 64) : Prop :=
  start.toNat ≤ x.toNat ∧ x.toNat < start.toNat + size.toNat

/-- `x` lies in `[lo, hi)`. -/
def Between (x lo hi : BitVec 64) : Prop := lo.toNat ≤ x.toNat ∧ x.toNat < hi.toNat

instance (x start size : BitVec 64) : Decidable (InSpan x start size) :=
  inferInstanceAs (Decidable (_ ∧ _))

instance (x lo hi : BitVec 64) : Decidable (Between x lo hi) :=
  inferInstanceAs (Decidable (_ ∧ _))

/-- The maximum of 0 and the pages of the leaves in `[lo, hi)`. -/
def maxSeen (lo hi : Paddr) (l : List Entry) : ℕ :=
  l.foldl (fun mx e => if e.IsLeaf ∧ Between e.phys lo hi then max mx e.phys.toNat else mx) 0

/-- The description of the enclave memory does not wrap. -/
structure KeystoneHashEnclave.NoWrap (cargs : KeystoneHashEnclave) : Prop where
  epm : cargs.epmPaddr.toNat + cargs.epmSize.toNat < 2 ^ 64
  utm : cargs.utmPaddr.toNat + cargs.utmSize.toNat < 2 ^ 64
  untrusted : cargs.untrustedPtr.toNat + cargs.untrustedSize.toNat < 2 ^ 64

/-- The entry must be rejected at the lowest level, after the leaves of
`earlier`. -/
structure BadLeaf (cargs : KeystoneHashEnclave) (earlier : List Entry) (e : Entry) : Prop where
  isLeaf : e.level = 1
  bad :
    (Between e.phys cargs.userPaddr cargs.freePaddr ∧ e.pte &&& pteU = 0#64) ∨
    (InSpan e.va cargs.untrustedPtr cargs.untrustedSize ∧
      ¬ InSpan e.phys cargs.utmPaddr cargs.utmSize) ∨
    (Between e.phys cargs.runtimePaddr cargs.userPaddr ∧
      ¬ maxSeen cargs.runtimePaddr cargs.userPaddr earlier < e.phys.toNat) ∨
    (Between e.phys cargs.userPaddr cargs.freePaddr ∧
      ¬ maxSeen cargs.userPaddr cargs.freePaddr earlier < e.phys.toNat) ∨
    (¬ Between e.phys cargs.runtimePaddr cargs.userPaddr ∧
      ¬ Between e.phys cargs.userPaddr cargs.freePaddr ∧
      ¬ InSpan e.phys cargs.utmPaddr cargs.utmSize)

/-- The entry must be rejected after the entries `earlier`. -/
def Bad (cargs : KeystoneHashEnclave) (earlier : List Entry) (e : Entry) : Prop :=
  (¬ InSpan e.phys cargs.epmPaddr cargs.epmSize ∧
    ¬ (e.level = 1 ∧ InSpan e.phys cargs.utmPaddr cargs.utmSize)) ∨
  BadLeaf cargs earlier e

section

variable {m : Mem} {cargs : KeystoneHashEnclave}

theorem inSpan_iff {x start size : BitVec 64} (h : start.toNat + size.toNat < 2 ^ 64) :
    (decide (start ≤ x) && decide (x < start + size)) = true ↔ InSpan x start size := by
  rw [Bool.and_eq_true, decide_eq_true_iff, decide_eq_true_iff, BitVec.le_def, BitVec.lt_def,
    BitVec.toNat_add, Nat.mod_eq_of_lt h]
  rfl

theorem between_iff {x lo hi : BitVec 64} :
    (decide (lo ≤ x) && decide (x < hi)) = true ↔ Between x lo hi := by
  rw [Bool.and_eq_true, decide_eq_true_iff, decide_eq_true_iff, BitVec.le_def, BitVec.lt_def]
  rfl

/-- The maxima of the walk are those of the leaves it has seen. -/
structure Seen (cargs : KeystoneHashEnclave) (earlier : List Entry) (st : WalkState) : Prop where
  runtime : st.runtimeMaxSeen.toNat = maxSeen cargs.runtimePaddr cargs.userPaddr earlier
  user : st.userMaxSeen.toNat = maxSeen cargs.userPaddr cargs.freePaddr earlier

theorem Seen.hashExtend {earlier : List Entry} {st : WalkState} (h : Seen cargs earlier st)
    (bytes : List Byte) : Seen cargs earlier (st.hashExtend bytes) := ⟨h.runtime, h.user⟩

theorem maxSeen_snoc (lo hi : Paddr) (l : List Entry) (e : Entry) :
    maxSeen lo hi (l ++ [e]) =
      if e.IsLeaf ∧ Between e.phys lo hi then max (maxSeen lo hi l) e.phys.toNat
      else maxSeen lo hi l := by
  simp [maxSeen]

/-- The leaves seen are below the maximum. -/
theorem le_maxSeen {lo hi : Paddr} {l : List Entry} {e : Entry} (he : e ∈ l) (hleaf : e.IsLeaf)
    (hin : Between e.phys lo hi) : e.phys.toNat ≤ maxSeen lo hi l := by
  induction l using List.reverseRecOn with
  | nil => exact absurd he List.not_mem_nil
  | append_singleton l e' ih =>
    rw [maxSeen_snoc]
    rcases List.mem_append.mp he with he | he
    · have := ih he
      split <;> omega
    · obtain rfl := List.mem_singleton.mp he
      rw [if_pos ⟨hleaf, hin⟩]
      omega

/-- A leaf that passes the range check is rejected iff it is bad; otherwise the
maxima take it in. -/
theorem validateLeaf_spec (hwrap : cargs.NoWrap) {earlier : List Entry} {e : Entry}
    (hleaf : e.IsLeaf) {st : WalkState} (hseen : Seen cargs earlier st) :
    (validateLeaf m cargs e.pte e.va st = none ∧ BadLeaf cargs earlier e) ∨
      ∃ st', validateLeaf m cargs e.pte e.va st = some st' ∧
        ¬ BadLeaf cargs earlier e ∧ Seen cargs (earlier ++ [e]) st' := by
  have hu : cargs.inUser e.phys = true ↔ Between e.phys cargs.userPaddr cargs.freePaddr :=
    between_iff
  have hr : cargs.inRuntime e.phys = true ↔ Between e.phys cargs.runtimePaddr cargs.userPaddr :=
    between_iff
  have ht : cargs.inUntrusted e.va = true ↔
      InSpan e.va cargs.untrustedPtr cargs.untrustedSize := inSpan_iff hwrap.untrusted
  have hm : cargs.mapInUtm e.phys = true ↔ InSpan e.phys cargs.utmPaddr cargs.utmSize :=
    inSpan_iff hwrap.utm
  -- the two ranges of the EPM have no page in common
  have hexcl : Between e.phys cargs.runtimePaddr cargs.userPaddr →
      ¬ Between e.phys cargs.userPaddr cargs.freePaddr := by
    unfold Between
    omega
  have hphys : ptePhys e.pte = e.phys := rfl
  unfold validateLeaf
  simp only [hu, hr, ht, hm, hphys, BitVec.le_def, hseen.runtime, hseen.user]
  -- the tests in the order of the code; a test that rejects is a disjunct of `BadLeaf`, and a
  -- leaf that is accepted has failed all five
  by_cases h1 : Between e.phys cargs.userPaddr cargs.freePaddr ∧ e.pte &&& pteU = 0#64
  · rw [if_pos h1]
    exact .inl ⟨rfl, hleaf.2, .inl h1⟩
  rw [if_neg h1]
  by_cases h2 : InSpan e.va cargs.untrustedPtr cargs.untrustedSize ∧
      ¬ InSpan e.phys cargs.utmPaddr cargs.utmSize
  · rw [if_pos h2]
    exact .inl ⟨rfl, hleaf.2, .inr (.inl h2)⟩
  rw [if_neg h2]
  by_cases h3 : Between e.phys cargs.runtimePaddr cargs.userPaddr
  · rw [if_pos h3]
    have hnu := hexcl h3
    by_cases hmax : e.phys.toNat ≤ maxSeen cargs.runtimePaddr cargs.userPaddr earlier
    · rw [if_pos hmax]
      exact .inl ⟨rfl, hleaf.2, .inr (.inr (.inl ⟨h3, by omega⟩))⟩
    · rw [if_neg hmax]
      refine .inr ⟨_, rfl, ?_, ?_, ?_⟩
      · rintro ⟨-, h | h | h | h | h⟩
        · exact h1 h
        · exact h2 h
        · omega
        · exact hnu h.1
        · exact h.1 h3
      · rw [maxSeen_snoc, if_pos ⟨hleaf, h3⟩]
        show e.phys.toNat = _
        omega
      · rw [maxSeen_snoc, if_neg fun h => hnu h.2]
        exact hseen.user
  rw [if_neg h3]
  by_cases h4 : Between e.phys cargs.userPaddr cargs.freePaddr
  · rw [if_pos h4]
    by_cases hmax : e.phys.toNat ≤ maxSeen cargs.userPaddr cargs.freePaddr earlier
    · rw [if_pos hmax]
      exact .inl ⟨rfl, hleaf.2, .inr (.inr (.inr (.inl ⟨h4, by omega⟩)))⟩
    · rw [if_neg hmax]
      refine .inr ⟨_, rfl, ?_, ?_, ?_⟩
      · rintro ⟨-, h | h | h | h | h⟩
        · exact h1 h
        · exact h2 h
        · exact h3 h.1
        · omega
        · exact h.2.1 h4
      · rw [maxSeen_snoc, if_neg fun h => h3 h.2]
        exact hseen.runtime
      · rw [maxSeen_snoc, if_pos ⟨hleaf, h4⟩]
        show e.phys.toNat = _
        omega
  rw [if_neg h4]
  by_cases h5 : InSpan e.phys cargs.utmPaddr cargs.utmSize
  · rw [if_pos h5]
    refine .inr ⟨_, rfl, ?_, ?_, ?_⟩
    · rintro ⟨-, h | h | h | h | h⟩
      · exact h1 h
      · exact h2 h
      · exact h3 h.1
      · exact h4 h.1
      · exact h.2.2 h5
    · rw [maxSeen_snoc, if_neg fun h => h3 h.2]
      exact hseen.runtime
    · rw [maxSeen_snoc, if_neg fun h => h4 h.2]
      exact hseen.user
  · rw [if_neg h5]
    exact .inl ⟨rfl, hleaf.2, .inr (.inr (.inr (.inr ⟨h3, h4, h5⟩)))⟩

/-- The same for any nonzero entry. -/
theorem walkEntry_spec (hwrap : cargs.NoWrap) {earlier : List Entry} {e : Entry}
    (hpte : e.pte ≠ 0#64) {s : Int × WalkState} (hseen : Seen cargs earlier s.2) :
    (walkEntry m cargs s e = none ∧ Bad cargs earlier e) ∨
      ∃ s', walkEntry m cargs s e = some s' ∧
        ¬ Bad cargs earlier e ∧ Seen cargs (earlier ++ [e]) s'.2 := by
  have hepm : cargs.mapInEpm e.phys = true ↔ InSpan e.phys cargs.epmPaddr cargs.epmSize :=
    inSpan_iff hwrap.epm
  have hutm : cargs.mapInUtm e.phys = true ↔ InSpan e.phys cargs.utmPaddr cargs.utmSize :=
    inSpan_iff hwrap.utm
  rw [walkEntry, if_neg hpte]
  simp only [hepm, hutm]
  by_cases hout : ¬ InSpan e.phys cargs.epmPaddr cargs.epmSize ∧
      (¬ InSpan e.phys cargs.utmPaddr cargs.utmSize ∨ e.level ≠ 1)
  · rw [if_pos hout]
    exact .inl ⟨rfl, .inl ⟨hout.1, by tauto⟩⟩
  rw [if_neg hout]
  have hin : ¬ (¬ InSpan e.phys cargs.epmPaddr cargs.epmSize ∧
      ¬ (e.level = 1 ∧ InSpan e.phys cargs.utmPaddr cargs.utmSize)) := by tauto
  by_cases hlevel : e.level = 1
  · rw [if_pos hlevel]
    have hstart : Seen cargs earlier
        (if s.1 = 0 then s.2.hashExtend (leBytes e.va) else s.2) := by
      split
      · exact hseen.hashExtend _
      · exact hseen
    obtain ⟨hv, hbad⟩ | ⟨st', hv, hgood, hseen'⟩ :=
      validateLeaf_spec (m := m) hwrap ⟨hpte, hlevel⟩ hstart
    · exact .inl ⟨by rw [hv]; rfl, .inr hbad⟩
    · exact .inr ⟨_, by rw [hv]; rfl, fun h => h.elim hin hgood, hseen'⟩
  · -- a table: nothing is seen at it but that it lies in the EPM
    rw [if_neg hlevel]
    refine .inr ⟨s, rfl, fun h => h.elim hin fun hb => hlevel hb.isLeaf, ?_, ?_⟩
    · rw [maxSeen_snoc, if_neg fun h => hlevel h.1.2]
      exact hseen.runtime
    · rw [maxSeen_snoc, if_neg fun h => hlevel h.1.2]
      exact hseen.user

/-- The walk ends at the first bad entry, if there is one. -/
theorem walk_none_iff (hwrap : cargs.NoWrap) (l earlier : List Entry) (s : Int × WalkState)
    (hseen : Seen cargs earlier s.2) :
    l.foldlM (walkEntry m cargs) s = none ↔
      ∃ before e after, l.filter (fun e => e.pte ≠ 0#64) = before ++ e :: after ∧
        Bad cargs (earlier ++ before) e := by
  induction l generalizing earlier s with
  | nil => simp
  | cons e l ih =>
    by_cases hpte : e.pte = 0#64
    · rw [List.foldlM_cons, walkEntry, if_pos hpte, List.filter_cons_of_neg (by simpa using hpte)]
      exact ih earlier (0, s.2) hseen
    rw [List.foldlM_cons, List.filter_cons_of_pos (by simpa using hpte)]
    obtain ⟨hnone, hbad⟩ | ⟨s', hsome, hgood, hseen'⟩ :=
      walkEntry_spec (m := m) hwrap hpte hseen
    · rw [hnone]
      exact ⟨fun _ => ⟨[], e, _, rfl, by rwa [List.append_nil]⟩, fun _ => rfl⟩
    rw [hsome]
    refine (ih (earlier ++ [e]) s' hseen').trans ⟨?_, ?_⟩
    · rintro ⟨before, e', after, hl, hbad⟩
      exact ⟨e :: before, e', after, by rw [hl]; rfl, by
        rwa [List.append_assoc, List.singleton_append] at hbad⟩
    · rintro ⟨before, e', after, hl, hbad⟩
      cases before with
      | nil =>
        obtain ⟨rfl, -⟩ := List.cons.inj hl
        rw [List.append_nil] at hbad
        exact absurd hbad hgood
      | cons e'' before =>
        obtain ⟨rfl, htail⟩ := List.cons.inj hl
        exact ⟨before, e', after, htail, by
          rwa [List.append_assoc, List.singleton_append]⟩

/-- Both leaves lie in the runtime range, or both in the user range. -/
def SameSpace (cargs : KeystoneHashEnclave) (e e' : Entry) : Prop :=
  (Between e.phys cargs.runtimePaddr cargs.userPaddr ∧
    Between e'.phys cargs.runtimePaddr cargs.userPaddr) ∨
  (Between e.phys cargs.userPaddr cargs.freePaddr ∧
    Between e'.phys cargs.userPaddr cargs.freePaddr)

/-- Without bad entries the pages of each space ascend. -/
theorem ascending_of_not_bad (l earlier : List Entry)
    (h : ∀ before e after, l = before ++ e :: after → ¬ Bad cargs (earlier ++ before) e) :
    l.Pairwise fun e e' =>
      e.IsLeaf → e'.IsLeaf → SameSpace cargs e e' → e.phys.toNat < e'.phys.toNat := by
  induction l generalizing earlier with
  | nil => exact List.Pairwise.nil
  | cons e l ih =>
    refine List.pairwise_cons.mpr ⟨fun e' hmem hleaf hleaf' hspace => ?_, ?_⟩
    · obtain ⟨before, after, rfl⟩ := List.append_of_mem hmem
      have hgood := h (e :: before) e' after rfl
      have hseen : e ∈ earlier ++ e :: before := by simp
      by_contra hge
      obtain ⟨hin, hin'⟩ | ⟨hin, hin'⟩ := hspace
      · have := le_maxSeen hseen hleaf hin
        exact hgood (.inr ⟨hleaf'.2, .inr (.inr (.inl ⟨hin', by omega⟩))⟩)
      · have := le_maxSeen hseen hleaf hin
        exact hgood (.inr ⟨hleaf'.2, .inr (.inr (.inr (.inl ⟨hin', by omega⟩)))⟩)
    · refine ih (earlier ++ [e]) fun before e' after hl => ?_
      have := h (e :: before) e' after (by rw [hl]; rfl)
      rwa [List.append_assoc, List.singleton_append]

/-- The law of `validate_and_hash_epm`: within a space a higher virtual address
means a higher physical one, and no page of the two spaces is mapped twice. -/
structure LinearMapping (cargs : KeystoneHashEnclave) (l : List Entry) : Prop where
  linear : ∀ e ∈ l, ∀ e' ∈ l, SameSpace cargs e e' → e.va < e'.va → e.phys < e'.phys
  atMostOnce :
    ((l.filter fun e => Between e.phys cargs.runtimePaddr cargs.freePaddr).map
      Entry.phys).Nodup

/-- Leaves of one page table lie at ascending addresses. -/
theorem leaves_sorted (m : Mem) (tb : Addr) :
    (leaves m tb).Pairwise fun e e' => e.va < e'.va := by
  have h := ((allEntries_tiles m tb).sorted le_rfl).filter (fun e => e.pte ≠ 0#64) |>.filter
    (fun e => e.IsLeaf)
  refine h.imp_of_mem fun he he' hlt => hlt ?_ ?_
  · simpa using (List.mem_filter.mp he).2
  · simpa using (List.mem_filter.mp he').2

/-- Leaves at ascending addresses whose pages ascend in each space. -/
theorem linearMapping_of_ascending {l : List Entry}
    (hsorted : l.Pairwise fun e e' => e.va < e'.va)
    (hasc : l.Pairwise fun e e' => SameSpace cargs e e' → e.phys.toNat < e'.phys.toNat) :
    LinearMapping cargs l := by
  constructor
  · intro e he e' he' hspace hva
    -- of two leaves the one at the lower address is visited first
    have hboth := hsorted.and hasc
    obtain rfl | hne := eq_or_ne e e'
    · exact absurd hva (BitVec.lt_irrefl _)
    obtain ⟨before, after, rfl⟩ := List.append_of_mem he
    obtain ⟨-, hafter, hcross⟩ := List.pairwise_append.mp hboth
    obtain hmem | hmem := List.mem_append.mp he'
    · have := hcross e' hmem e List.mem_cons_self
      exact absurd hva (BitVec.not_lt.mpr (BitVec.le_of_lt this.1))
    · obtain rfl | hmem := List.mem_cons.mp hmem
      · exact absurd rfl hne
      · have := (List.pairwise_cons.mp hafter).1 e' hmem
        exact BitVec.lt_def.mpr (this.2 hspace)
  · refine List.pairwise_map.mpr ((hasc.filter _).imp_of_mem fun {e e'} he he' hlt hphys => ?_)
    -- equal pages of the two spaces are in the same space
    have hin : Between e.phys cargs.runtimePaddr cargs.freePaddr := by
      simpa using (List.mem_filter.mp he).2
    have hspace : SameSpace cargs e e' := by
      unfold SameSpace
      rw [← hphys]
      unfold Between at *
      omega
    have := hlt hspace
    rw [hphys] at this
    omega

theorem leaves_ascending {tb : Addr}
    (h : (visits m tb).Pairwise fun e e' =>
      e.IsLeaf → e'.IsLeaf → SameSpace cargs e e' → e.phys.toNat < e'.phys.toNat) :
    (leaves m tb).Pairwise fun e e' => SameSpace cargs e e' → e.phys.toNat < e'.phys.toNat := by
  have hfilter := h.filter fun e => e.IsLeaf
  refine hfilter.imp_of_mem fun he he' hlt => hlt ?_ ?_
  · simpa using (List.mem_filter.mp he).2
  · simpa using (List.mem_filter.mp he').2

theorem validateTable_rejects_iff (hwrap : cargs.NoWrap) (tb : Addr) (hashed : List Byte) :
    (validateTable m cargs tb hashed).1 = -1 ↔
      ∃ earlier e later, visits m tb = earlier ++ e :: later ∧ Bad cargs earlier e := by
  have hfollows := validateTable_follows m cargs tb hashed
  have hnone := walk_none_iff (m := m) hwrap (allEntries m tb) [] (0, ⟨hashed, 0#64, 0#64⟩)
    ⟨rfl, rfl⟩
  simp only [List.nil_append] at hnone
  rw [visits, ← hnone]
  rcases hfold : (allEntries m tb).foldlM (walkEntry m cargs) (0, ⟨hashed, 0#64, 0#64⟩)
    with _ | s <;> rw [hfold] at hfollows
  · exact ⟨fun _ => rfl, fun _ => hfollows.ended rfl⟩
  · obtain ⟨heq, hne⟩ := hfollows.finished s rfl
    rw [heq]
    exact ⟨fun h => absurd h hne, fun h => by cases h⟩

/-- **At-most-once linear mapping, exactly**: the walk rejects a page table iff
its visit meets a bad entry, and what it accepts is mapped linearly and at most
once. -/
theorem validate_rejects_iff (m : Mem) (cargs : KeystoneHashEnclave) (hwrap : cargs.NoWrap)
    (tb : Addr) (hashed : List Byte) :
    ((validateTable m cargs tb hashed).1 = -1 ↔
      ∃ earlier e later, visits m tb = earlier ++ e :: later ∧ Bad cargs earlier e) ∧
    ((validateTable m cargs tb hashed).1 ≠ -1 → LinearMapping cargs (leaves m tb)) := by
  have hiff := validateTable_rejects_iff (m := m) hwrap tb hashed
  refine ⟨hiff, fun haccept => linearMapping_of_ascending (leaves_sorted m tb) ?_⟩
  refine leaves_ascending (ascending_of_not_bad _ [] fun before e after hl hbad => ?_)
  exact haccept (hiff.mpr ⟨before, e, after, hl, hbad⟩)

end

/-! ### A small page table -/

/-- Only what a nonzero entry leads to is visited. -/
theorem filter_entries_succ (m : Mem) (level : ℕ) (tb : Addr) (vaddr : Vaddr) :
    (entries m (level + 1) tb vaddr).filter (fun e => e.pte ≠ 0#64) =
      ((List.range 512).filter fun i =>
        readLE64 m (tb + 8#64 * BitVec.ofNat 64 i) ≠ 0#64).flatMap fun i =>
          tableEntry m (level + 1) tb vaddr i ::
            (entries m level (tableEntry m (level + 1) tb vaddr i).phys
              (walkVpn (level + 1) vaddr i)).filter fun e => e.pte ≠ 0#64 := by
  rw [entries]
  generalize List.range 512 = indices
  induction indices with
  | nil => rfl
  | cons i rest ih =>
    rw [List.flatMap_cons, List.filter_append, ih]
    by_cases hzero : (tableEntry m (level + 1) tb vaddr i).pte = 0#64
    · have hread : readLE64 m (tb + 8#64 * BitVec.ofNat 64 i) = 0#64 := hzero
      simp [hzero, hread]
    · have hread : ¬ readLE64 m (tb + 8#64 * BitVec.ofNat 64 i) = 0#64 := hzero
      simp [hzero, hread]

/-- The indices at which a table has entries, listed in order. -/
theorem filter_range_eq {p : ℕ → Prop} [DecidablePred p] {n : ℕ} {l : List ℕ}
    (hsorted : l.Pairwise (· < ·)) (hlt : ∀ j ∈ l, j < n) (h : ∀ j, j < n → (p j ↔ j ∈ l)) :
    (List.range n).filter (fun j => p j) = l := by
  have hrange : ((List.range n).filter fun j => p j).Pairwise (· < ·) :=
    List.pairwise_lt_range.filter _
  have hperm := (List.perm_ext_iff_of_nodup (hrange.imp Nat.ne_of_lt)
    (hsorted.imp Nat.ne_of_lt)).mpr fun j => by
      rw [List.mem_filter, List.mem_range, decide_eq_true_iff]
      exact ⟨fun hj => (h j hj.1).mp hj.2, fun hj => ⟨hlt j hj, (h j (hlt j hj)).mpr hj⟩⟩
  exact hperm.eq_of_pairwise (fun _ _ _ _ hlt hgt => absurd hlt (Nat.lt_asymm hgt)) hrange hsorted

/-- A table is accepted if the walk over its nonzero entries ends. -/
theorem validateTable_accepts {m : Mem} {cargs : KeystoneHashEnclave} (hwrap : cargs.NoWrap)
    (tb : Addr) (hashed : List Byte)
    (h : ((visits m tb).foldlM (walkEntry m cargs) (0, ⟨hashed, 0#64, 0#64⟩)).isSome) :
    (validateTable m cargs tb hashed).1 ≠ -1 := by
  intro hreject
  obtain ⟨earlier, e, later, hl, hbad⟩ := (validateTable_rejects_iff hwrap tb hashed).mp hreject
  have hnonzero : ∀ e ∈ visits m tb, decide (e.pte ≠ 0#64) = true :=
    fun e he => (List.mem_filter.mp he).2
  have hnone := (walk_none_iff (m := m) hwrap (visits m tb) [] (0, ⟨hashed, 0#64, 0#64⟩)
    ⟨rfl, rfl⟩).mpr ⟨earlier, e, later, by rw [List.filter_eq_self.mpr hnonzero, hl], hbad⟩
  rw [hnone] at h
  cases h

/-- A page table at 0x10000 with one table of each level.  It maps the pages
with numbers `a`, `b` and `c` to the zero pages at 0x13000, 0x14000 and
0x15000, but word `i` of the second one is `w`. -/
def smallTable (a b c i : ℕ) (w : BitVec 64) : Mem :=
  let tables := writeLE64 (writeLE64 (fun _ => 0) (frameAddr 0x10 (8 * 0)) (ptdCreate 0x11#64))
    (frameAddr 0x11 (8 * 0)) (ptdCreate 0x12#64)
  let first := writeLE64 tables (frameAddr 0x12 (8 * a)) (pteCreate 0x13#64 pteU)
  let second := writeLE64 first (frameAddr 0x12 (8 * b)) (pteCreate 0x14#64 pteU)
  let third := writeLE64 second (frameAddr 0x12 (8 * c)) (pteCreate 0x15#64 pteU)
  writeLE64 third (frameAddr 0x14 (8 * i)) w

/-- One runtime page at 0x13000, then user pages. -/
def smallTableArgs : KeystoneHashEnclave where
  epmPaddr := 0x10000#64
  epmSize := 0x8000#64
  utmPaddr := 0x20000#64
  utmSize := 0x1000#64
  runtimePaddr := 0x13000#64
  userPaddr := 0x14000#64
  freePaddr := 0x18000#64
  untrustedPtr := 0x30000#64
  untrustedSize := 0x1000#64

theorem smallTableArgs_noWrap : smallTableArgs.NoWrap := ⟨by decide, by decide, by decide⟩

section

variable {a b c i : ℕ} {w : BitVec 64}

theorem smallTable_read (ha : a < 512) (hb : b < 512) (hc : c < 512) (hi : i < 512) {q j : ℕ}
    (hq : q < 2 ^ 52) (hj : j < 512) :
    readLE64 (smallTable a b c i w) (frameAddr q (8 * j)) =
      if 0x14 = q ∧ i = j then w
      else if 0x12 = q ∧ c = j then pteCreate 0x15#64 pteU
      else if 0x12 = q ∧ b = j then pteCreate 0x14#64 pteU
      else if 0x12 = q ∧ a = j then pteCreate 0x13#64 pteU
      else if 0x11 = q ∧ 0 = j then ptdCreate 0x12#64
      else if 0x10 = q ∧ 0 = j then ptdCreate 0x11#64 else 0#64 := by
  rw [smallTable, readLE64_writeLE64_frame _ _ (by decide) hq hi hj,
    readLE64_writeLE64_frame _ _ (by decide) hq hc hj,
    readLE64_writeLE64_frame _ _ (by decide) hq hb hj,
    readLE64_writeLE64_frame _ _ (by decide) hq ha hj,
    readLE64_writeLE64_frame _ _ (by decide) hq (by decide) hj,
    readLE64_writeLE64_frame _ _ (by decide) hq (by decide) hj,
    readLE64_frame_zero hj fun _ _ => rfl]

/-- The tables of the small page table have the entries it is made of. -/
theorem smallTable_indices (hab : a < b) (hbc : b < c) (hc : c < 512) (hi : i < 512) {q : ℕ}
    {l : List ℕ} (hq : q = 0x10 ∧ l = [0] ∨ q = 0x11 ∧ l = [0] ∨ q = 0x12 ∧ l = [a, b, c]) :
    (List.range 512).filter (fun j =>
      readLE64 (smallTable a b c i w) (frameAddr q 0 + 8#64 * BitVec.ofNat 64 j) ≠ 0#64) = l := by
  have ha : a < 512 := by omega
  have hb : b < 512 := by omega
  obtain ⟨rfl, rfl⟩ | ⟨rfl, rfl⟩ | ⟨rfl, rfl⟩ := hq
  · refine filter_range_eq (by simp) (by simp) fun j hj => ?_
    rw [frameAddr_index, smallTable_read ha hb hc hi (by decide) hj]
    simp [ptdCreate, pteCreate_ne_zero]
    exact eq_comm
  · refine filter_range_eq (by simp) (by simp) fun j hj => ?_
    rw [frameAddr_index, smallTable_read ha hb hc hi (by decide) hj]
    simp [ptdCreate, pteCreate_ne_zero]
    exact eq_comm
  · refine filter_range_eq (by simp; omega) (by simp; omega) fun j hj => ?_
    rw [frameAddr_index, smallTable_read ha hb hc hi (by decide) hj]
    simp only [List.mem_cons, List.not_mem_nil]
    grind [pteCreate_ne_zero]

theorem smallTable_root (ha : a < 512) (hb : b < 512) (hc : c < 512) (hi : i < 512) :
    tableEntry (smallTable a b c i w) 3 (frameAddr 0x10 0) 0#64 0 =
      ⟨3, 0#64, ptdCreate 0x11#64⟩ := by
  rw [tableEntry, frameAddr_index, smallTable_read ha hb hc hi (by decide) (by decide)]
  simp only [Entry.mk.injEq]
  exact ⟨trivial, by decide, by simp⟩

theorem smallTable_directory (ha : a < 512) (hb : b < 512) (hc : c < 512) (hi : i < 512) :
    tableEntry (smallTable a b c i w) 2 (frameAddr 0x11 0) (walkVpn 3 0#64 0) 0 =
      ⟨2, 0#64, ptdCreate 0x12#64⟩ := by
  rw [tableEntry, frameAddr_index, smallTable_read ha hb hc hi (by decide) (by decide)]
  simp only [Entry.mk.injEq]
  exact ⟨trivial, by decide, by simp⟩

theorem smallTable_leaf (ha : a < 512) (hb : b < 512) (hc : c < 512) (hi : i < 512) {n : ℕ}
    (hn : n < 512) :
    tableEntry (smallTable a b c i w) 1 (frameAddr 0x12 0) (walkVpn 2 (walkVpn 3 0#64 0) 0) n =
      ⟨1, pageVa n, if c = n then pteCreate 0x15#64 pteU else if b = n then pteCreate 0x14#64 pteU
        else if a = n then pteCreate 0x13#64 pteU else 0#64⟩ := by
  have hstart := ((startsAt_root (i := 0) (by decide)).walkVpn (by decide) (i := 0)
    (by decide)).walkVpn (by decide) hn 0 (by decide)
  rw [tableEntry, frameAddr_index, smallTable_read ha hb hc hi (by decide) hn]
  simp only [Entry.mk.injEq]
  refine ⟨trivial, ?_, by simp⟩
  simpa [riscvPgshift, riscvPglevelTop, vaBits, riscvPglevelBits] using hstart

/-- The nonzero entries of the small table, for page numbers in order. -/
theorem smallTable_visits (hab : a < b) (hbc : b < c) (hc : c < 512) (hi : i < 512) :
    visits (smallTable a b c i w) (frameAddr 0x10 0) =
      [⟨3, 0#64, ptdCreate 0x11#64⟩, ⟨2, 0#64, ptdCreate 0x12#64⟩,
        ⟨1, pageVa a, pteCreate 0x13#64 pteU⟩, ⟨1, pageVa b, pteCreate 0x14#64 pteU⟩,
        ⟨1, pageVa c, pteCreate 0x15#64 pteU⟩] := by
  have ha : a < 512 := by omega
  have hb : b < 512 := by omega
  have hphys : ptePhys (ptdCreate 0x11#64) = frameAddr 0x11 0 ∧
      ptePhys (ptdCreate 0x12#64) = frameAddr 0x12 0 := ⟨by decide, by decide⟩
  have hbottom : ∀ tb vaddr, entries (smallTable a b c i w) 0 tb vaddr = [] := fun _ _ => rfl
  rw [visits, allEntries, show riscvPglevelTop = 2 + 1 from rfl, filter_entries_succ,
    smallTable_indices hab hbc hc hi (.inl ⟨rfl, rfl⟩), List.flatMap_singleton,
    smallTable_root ha hb hc hi, Entry.phys, hphys.1, filter_entries_succ,
    smallTable_indices hab hbc hc hi (.inr (.inl ⟨rfl, rfl⟩)), List.flatMap_singleton,
    smallTable_directory ha hb hc hi, Entry.phys, hphys.2, filter_entries_succ,
    smallTable_indices hab hbc hc hi (.inr (.inr ⟨rfl, rfl⟩))]
  simp only [List.flatMap_cons, List.flatMap_nil, hbottom, smallTable_leaf ha hb hc hi ha,
    smallTable_leaf ha hb hc hi hb, smallTable_leaf ha hb hc hi hc, List.filter_nil,
    if_neg hab.ne', if_neg hbc.ne', if_neg (hab.trans hbc).ne', if_true]
  rfl

/-- Both tables of three pages are accepted, whatever was hashed before. -/
theorem smallTable_accepted {b : ℕ} (hb : b = 2 ∨ b = 3) (hi : i < 512) (hashed : List Byte) :
    (validateTable (smallTable 1 b 4 i w) smallTableArgs (frameAddr 0x10 0) hashed).1 ≠ -1 := by
  refine validateTable_accepts smallTableArgs_noWrap _ _ ?_
  rw [smallTable_visits (by omega) (by omega) (by decide) hi]
  obtain rfl | rfl := hb
  · rfl
  · rfl

end

theorem validate_rejects_iff_small :
    LinearMapping smallTableArgs (leaves (smallTable 1 2 4 0 0#64) (frameAddr 0x10 0)) :=
  (validate_rejects_iff (smallTable 1 2 4 0 0#64) smallTableArgs smallTableArgs_noWrap
    (frameAddr 0x10 0) []).2 (smallTable_accepted (.inl rfl) (by decide) [])

end KeystoneSdk
