/-
Constants and macros of the host library (`common.h`, `page.h`, `keystone_user.h`).

* `roundUp`, `roundDown`, `pageUp`, `pageDown`, `isAligned` — the rounding
  macros of `common.h`, on 64-bit words, with their values as natural numbers;
* `pteCreate`, `ptdCreate`, `ptePpn`, `ppn`, `ptIdx` — page table entries as
  `page.h` builds and reads them for `__riscv_xlen == 64`;
* `frameAddr` — byte `o` of physical page frame `p`, the form in which the
  proofs meet every page-aligned address.
-/
import KeystoneSdk.ByteMemory

open ByteMemory

namespace KeystoneSdk

abbrev Vaddr := BitVec 64

abbrev Paddr := BitVec 64

/-- `keystone_status_t`. -/
inductive KeystoneStatus
  | keystoneError
  | keystoneSuccess
  | keystoneNotImplemented
  deriving DecidableEq, Repr

/-! ### `common.h` -/

def pageBits : ℕ := 12

/-- `PAGE_SIZE`, `1UL << PAGE_BITS`. -/
def pageSize : BitVec 64 := 1#64 <<< pageBits

/-- `ROUND_UP(n, b)`: the subtraction and the final shift wrap. -/
def roundUp (n : BitVec 64) (b : ℕ) : BitVec 64 := (((n - 1#64) >>> b) + 1#64) <<< b

/-- `ROUND_DOWN(n, b)`, `n & ~((2 << (b-1)) - 1)`. -/
def roundDown (n : BitVec 64) (b : ℕ) : BitVec 64 := n &&& ~~~((2#64 <<< (b - 1)) - 1#64)

def pageDown (n : BitVec 64) : BitVec 64 := roundDown n pageBits

def pageUp (n : BitVec 64) : BitVec 64 := roundUp n pageBits

/-- `IS_ALIGNED(x, align)`. -/
def isAligned (x align : BitVec 64) : Bool := (x &&& (align - 1#64)) == 0#64

theorem pageSize_eq : pageSize = 4096#64 := rfl

@[simp] theorem pageSize_toNat : pageSize.toNat = 4096 := rfl

theorem roundDown_toNat (n : BitVec 64) :
    (roundDown n pageBits).toNat = n.toNat / 4096 * 4096 := by
  have h : roundDown n pageBits = (n >>> 12) <<< 12 := by
    show n &&& ~~~(4095#64) = (n >>> 12) <<< 12
    ext i hi
    have hmask : (4095#64)[i] = decide (i < 12) := by
      rw [← BitVec.getLsbD_eq_getElem, BitVec.getLsbD_ofNat, show 4095 = 2 ^ 12 - 1 from rfl,
        Nat.testBit_two_pow_sub_one]
      simp [hi]
    simp only [BitVec.getElem_and, BitVec.getElem_not, hmask, BitVec.getElem_shiftLeft,
      BitVec.getElem_ushiftRight]
    by_cases hlow : i < 12
    · simp [hlow]
    · rw [Nat.add_sub_cancel' (by omega), BitVec.getLsbD_eq_getElem hi]
      simp [hlow]
  have := n.isLt
  rw [h, BitVec.toNat_shiftLeft, BitVec.toNat_ushiftRight, Nat.shiftRight_eq_div_pow,
    Nat.shiftLeft_eq, Nat.mod_eq_of_lt (by omega)]

theorem roundUp_toNat (n : BitVec 64) :
    (roundUp n pageBits).toNat = (n.toNat + 4095) / 4096 * 4096 % 2 ^ 64 := by
  have := n.isLt
  unfold roundUp pageBits
  rw [BitVec.toNat_shiftLeft, BitVec.toNat_add, BitVec.toNat_ushiftRight,
    Nat.shiftRight_eq_div_pow, Nat.shiftLeft_eq, BitVec.toNat_sub]
  simp only [BitVec.toNat_ofNat]
  omega

theorem isAligned_iff (x : BitVec 64) : isAligned x pageSize = true ↔ x.toNat % 4096 = 0 := by
  unfold isAligned
  rw [beq_iff_eq, ← BitVec.toNat_inj, BitVec.toNat_and,
    show (pageSize - 1#64).toNat = 2 ^ 12 - 1 from rfl, Nat.and_two_pow_sub_one_eq_mod]
  simp

/-! ### `page.h` -/

/-- `pte_t`, the value `pte_val` reads. -/
abbrev Pte := BitVec 64

def pteV : BitVec 64 := 0x001#64
def pteR : BitVec 64 := 0x002#64
def pteW : BitVec 64 := 0x004#64
def pteX : BitVec 64 := 0x008#64
def pteU : BitVec 64 := 0x010#64
def pteA : BitVec 64 := 0x040#64
def pteD : BitVec 64 := 0x080#64
def pteL : BitVec 64 := 1#64 <<< 8

def ptePpnShift : ℕ := 10
def vaBits : ℕ := 39
def riscvPglevelBits : ℕ := 9
def riscvPgshift : ℕ := 12
def riscvPgsize : ℕ := 1 <<< riscvPgshift
def riscvPglevelMask : BitVec 64 := 0x1ff#64
def riscvPgtableHighestBit : ℕ := 0x100
def riscvPglevelTop : ℕ := (vaBits - riscvPgshift) / riscvPglevelBits

def pteCreate (ppn type : BitVec 64) : Pte := (ppn <<< ptePpnShift) ||| pteV ||| type

def ptdCreate (ppn : BitVec 64) : Pte := pteCreate ppn pteV

def ptePpn (pte : Pte) : Paddr := pte >>> ptePpnShift

def ppn (addr : Vaddr) : Paddr := addr >>> riscvPgshift

def ptIdx (addr : Vaddr) (level : ℕ) : BitVec 64 :=
  (addr >>> (riscvPglevelBits * level + riscvPgshift)) &&& ((1#64 <<< riscvPglevelBits) - 1#64)

/-- The 27-bit virtual page number by which the page table indexes `addr`. -/
def vpn (addr : Vaddr) : ℕ := addr.toNat / 4096 % 134217728

theorem vpn_lt (addr : Vaddr) : vpn addr < 134217728 := Nat.mod_lt _ (by decide)

theorem ptIdx_toNat (addr : Vaddr) (level : ℕ) :
    (ptIdx addr level).toNat = addr.toNat / 2 ^ (9 * level + 12) % 512 := by
  unfold ptIdx riscvPglevelBits riscvPgshift
  rw [BitVec.toNat_and, BitVec.toNat_ushiftRight, Nat.shiftRight_eq_div_pow,
    show ((1#64 <<< 9) - 1#64).toNat = 2 ^ 9 - 1 from rfl, Nat.and_two_pow_sub_one_eq_mod]

/-- The index at walk level `i`, as a digit of the virtual page number. -/
theorem ptIdx_eq_vpn (addr : Vaddr) {i : ℕ} (hi : i < 3) :
    ptIdx addr i = BitVec.ofNat 64 (vpn addr / 512 ^ i % 512) := by
  apply BitVec.eq_of_toNat_eq
  rw [ptIdx_toNat, BitVec.toNat_ofNat]
  have : i = 0 ∨ i = 1 ∨ i = 2 := by omega
  unfold vpn
  rcases this with rfl | rfl | rfl <;> norm_num <;> omega

/-! ### Entries -/

theorem shiftLeft_and_low {p x : BitVec 64} (hx : x.toNat < 1024) : (p <<< 10) &&& x = 0#64 := by
  ext i hi
  rw [BitVec.getElem_and, BitVec.getElem_shiftLeft, BitVec.getElem_zero]
  by_cases hlow : i < 10
  · simp [hlow]
  · have hbit : x[i] = false := by
      rw [← BitVec.getLsbD_eq_getElem]
      have hpow : 2 ^ 10 ≤ 2 ^ i := Nat.pow_le_pow_right (by decide) (by omega)
      exact Nat.testBit_lt_two_pow (lt_of_lt_of_le hx hpow)
    simp [hbit]

/-- The flag bits of an entry, below the page number. -/
theorem pteCreate_and_low {p t x : BitVec 64} (hx : x.toNat < 1024) :
    pteCreate p t &&& x = (pteV ||| t) &&& x := by
  unfold pteCreate ptePpnShift
  rw [BitVec.or_assoc, BitVec.and_comm, BitVec.and_or_distrib_left, BitVec.and_comm x (p <<< 10),
    shiftLeft_and_low hx, BitVec.zero_or, BitVec.and_comm]

theorem ushiftRight_low {t : BitVec 64} (ht : t.toNat < 1024) : t >>> 10 = 0#64 := by
  apply BitVec.eq_of_toNat_eq
  rw [BitVec.toNat_ushiftRight, Nat.shiftRight_eq_div_pow]
  simpa using Nat.div_eq_of_lt (show t.toNat < 2 ^ 10 from ht)

/-- The page number of an entry is the one it was created with. -/
theorem ptePpn_pteCreate {p t : BitVec 64} (hp : p.toNat < 2 ^ 54) (ht : t.toNat < 1024) :
    ptePpn (pteCreate p t) = p := by
  unfold ptePpn pteCreate ptePpnShift
  rw [BitVec.ushiftRight_or_distrib, BitVec.ushiftRight_or_distrib, ushiftRight_low ht,
    ushiftRight_low (t := pteV) (by decide), BitVec.or_zero, BitVec.or_zero]
  apply BitVec.eq_of_toNat_eq
  rw [BitVec.toNat_ushiftRight, BitVec.toNat_shiftLeft, Nat.shiftRight_eq_div_pow,
    Nat.shiftLeft_eq]
  omega

theorem pteCreate_valid (p t : BitVec 64) : pteCreate p t &&& pteV ≠ 0#64 := by
  rw [pteCreate_and_low (by decide), BitVec.and_comm, BitVec.and_or_distrib_left, BitVec.and_self]
  intro h
  have hbit := congrArg (fun x : BitVec 64 => x.getLsbD 0) h
  simp [pteV] at hbit

theorem pteCreate_ne_zero (p t : BitVec 64) : pteCreate p t ≠ 0#64 := by
  intro h
  exact pteCreate_valid p t (by rw [h, BitVec.zero_and])

/-! ### Page frames -/

/-- Byte `o` of the physical page frame with number `p`. -/
def frameAddr (p o : ℕ) : Addr := BitVec.ofNat 64 (4096 * p + o)

theorem frameAddr_toNat {p o : ℕ} (hp : p < 2 ^ 52) (ho : o < 4096) :
    (frameAddr p o).toNat = 4096 * p + o := by
  rw [frameAddr, BitVec.toNat_ofNat, Nat.mod_eq_of_lt (by omega)]

theorem frameAddr_inj {p q o o' : ℕ} (hp : p < 2 ^ 52) (hq : q < 2 ^ 52) (ho : o < 4096)
    (ho' : o' < 4096) (h : frameAddr p o = frameAddr q o') : p = q ∧ o = o' := by
  have hn := congrArg BitVec.toNat h
  rw [frameAddr_toNat hp ho, frameAddr_toNat hq ho'] at hn
  omega

theorem frameAddr_add (p o d : ℕ) : frameAddr p o + BitVec.ofNat 64 d = frameAddr p (o + d) := by
  rw [frameAddr, frameAddr, ← BitVec.ofNat_add, Nat.add_assoc]

theorem frameAddr_add_pageSize (p : ℕ) : frameAddr p 0 + pageSize = frameAddr (p + 1) 0 := by
  rw [pageSize_eq, frameAddr, frameAddr, ← BitVec.ofNat_add]
  congr 1

/-- The address of entry `i` of a table in frame `p`. -/
theorem frameAddr_index (p i : ℕ) :
    frameAddr p 0 + 8#64 * BitVec.ofNat 64 i = frameAddr p (8 * i) := by
  rw [← BitVec.ofNat_mul, frameAddr_add, Nat.zero_add]

theorem ppn_frameAddr {p o : ℕ} (hp : p < 2 ^ 52) (ho : o < 4096) :
    ppn (frameAddr p o) = BitVec.ofNat 64 p := by
  apply BitVec.eq_of_toNat_eq
  rw [ppn, BitVec.toNat_ushiftRight, frameAddr_toNat hp ho, BitVec.toNat_ofNat,
    Nat.shiftRight_eq_div_pow, riscvPgshift]
  omega

theorem ofNat_shiftLeft_pgshift (p : ℕ) :
    BitVec.ofNat 64 p <<< riscvPgshift = frameAddr p 0 := by
  apply BitVec.eq_of_toNat_eq
  rw [BitVec.toNat_shiftLeft, frameAddr, BitVec.toNat_ofNat, BitVec.toNat_ofNat,
    Nat.shiftLeft_eq, riscvPgshift]
  omega

/-- The frame an entry points to. -/
theorem ptePpn_shiftLeft {p : ℕ} {t : BitVec 64} (hp : p < 2 ^ 52) (ht : t.toNat < 1024) :
    ptePpn (pteCreate (BitVec.ofNat 64 p) t) <<< riscvPgshift = frameAddr p 0 := by
  rw [ptePpn_pteCreate _ ht, ofNat_shiftLeft_pgshift]
  rw [BitVec.toNat_ofNat]
  omega

/-! ### Loads and stores by frame -/

theorem frameAddr_byte_of_ne (m : Mem) {p q n o a : ℕ} (f : ℕ → Byte) (hp : p < 2 ^ 52)
    (hq : q < 2 ^ 52) (hn : a + n ≤ 4096) (ho : o < 4096) (hne : p ≠ q) :
    writeBytes m (frameAddr p a) n f (frameAddr q o) = m (frameAddr q o) := by
  rw [frameAddr, frameAddr, writeBytes_ofNat m f (by omega) (by omega), if_neg (by omega)]

theorem frameAddr_byte_page (m : Mem) {p o : ℕ} (f : ℕ → Byte) (hp : p < 2 ^ 52)
    (ho : o < 4096) : writeBytes m (frameAddr p 0) 4096 f (frameAddr p o) = f o := by
  rw [frameAddr, frameAddr, writeBytes_ofNat m f (by omega) (by omega), if_pos (by omega)]
  congr 1
  omega

theorem readLE64_frame_of_ne (m : Mem) {p q n i a : ℕ} (f : ℕ → Byte) (hp : p < 2 ^ 52)
    (hq : q < 2 ^ 52) (hn : a + n ≤ 4096) (hi : i < 512) (hne : p ≠ q) :
    readLE64 (writeBytes m (frameAddr p a) n f) (frameAddr q (8 * i)) =
      readLE64 m (frameAddr q (8 * i)) := by
  rw [frameAddr, frameAddr, readLE64_writeBytes_disjoint m f (by omega) (by omega) (by omega)]

/-- Reading entry `j` of frame `q` after storing entry `i` of frame `p`. -/
theorem readLE64_writeLE64_frame (m : Mem) {p q i j : ℕ} (v : BitVec 64) (hp : p < 2 ^ 52)
    (hq : q < 2 ^ 52) (hi : i < 512) (hj : j < 512) :
    readLE64 (writeLE64 m (frameAddr p (8 * i)) v) (frameAddr q (8 * j)) =
      if p = q ∧ i = j then v else readLE64 m (frameAddr q (8 * j)) := by
  by_cases h : p = q ∧ i = j
  · obtain ⟨rfl, rfl⟩ := h
    rw [if_pos ⟨rfl, rfl⟩, readLE64_writeLE64_same]
  · rw [if_neg h, writeLE64, frameAddr, frameAddr,
      readLE64_writeBytes_disjoint m _ (by omega) (by omega) (by omega)]

/-- A frame of zero bytes is a table of zero entries. -/
theorem readLE64_frame_zero {m : Mem} {p i : ℕ} (hi : i < 512)
    (h : ∀ o, o < 4096 → m (frameAddr p o) = 0) : readLE64 m (frameAddr p (8 * i)) = 0#64 :=
  readLE64_eq_zero fun d hd => by rw [frameAddr_add]; exact h _ (by omega)

end KeystoneSdk
