/-
`sha3.cpp` computes SHA-3.

A context takes its input byte by byte and permutes the state whenever a block
is full; it keeps neither the input nor its length.  A byte is eight bits of
the string that Keccak absorbs, and the two bytes `sha3_final` adds are the
suffix of SHA-3 with the padding.

* `sha3Update_feeds` — the input of a context is fed to the sponge bit by bit;
* `final_feeds` — the two last bytes are the suffix and the padding;
* **`sha3_chunks`** — however the input is cut into calls of `sha3_update`, the
  digest is the SHA-3 of all of it;
* **`measurement_digest`** — the hash of an enclave is the SHA3-512 of its
  parameters and its mapped pages.
-/
import KeystoneSdk.Sha3Rounds
import KeystoneSdk.Measurement

open ByteMemory StopM

namespace KeystoneSdk

/-- The bits of a byte, the least significant first. -/
def byteBits (b : Byte) : List (ZMod 2) := (List.range 8).map fun i => bit (b.getLsbD i)

/-- The bits of a list of bytes. -/
def bitsOf (l : List Byte) : List (ZMod 2) := l.flatMap byteBits

@[simp] theorem byteBits_length (b : Byte) : (byteBits b).length = 8 := by
  simp [byteBits]

@[simp] theorem bitsOf_length (l : List Byte) : (bitsOf l).length = 8 * l.length := by
  induction l with
  | nil => rfl
  | cons b l ih =>
    rw [bitsOf, List.flatMap_cons, ← bitsOf, List.length_append, ih, byteBits_length,
      List.length_cons]
    omega

theorem byteBits_getD (b : Byte) (i : ℕ) : (byteBits b).getD i 0 = bit (b.getLsbD i) := by
  by_cases h : i < 8
  · rw [List.getD_eq_getElem _ _ (by simpa using h)]
    simp [byteBits]
  · rw [List.getD_eq_default _ _ (by simpa using h), BitVec.getLsbD_of_ge _ _ (by omega)]
    rfl

namespace Lanes

theorem position_lane (x y : ZMod 5) (z : ZMod (2 ^ 6)) :
    Keccak.position x y z = 64 * (lane x y).val + z.val := rfl

/-- Eight bits at place `i` of a word. -/
theorem getLsbD_shifted (b : Byte) (i z : ℕ) (hz : z < 64) :
    (b.setWidth 64 <<< i).getLsbD z = (decide (i ≤ z) && b.getLsbD (z - i)) := by
  rw [BitVec.getLsbD_shiftLeft, BitVec.getLsbD_setWidth]
  by_cases h : z < i
  · have hle : ¬ i ≤ z := by omega
    simp [h, hle]
  · have hle : i ≤ z := by omega
    have hsub : z - i < 64 := by omega
    simp [h, hz, hle, hsub]

/-- A byte of the union is eight bits of the string. -/
theorem state_xorByte (st : Lanes) (k : Fin 200) (b : Byte) :
    (st.xorByte k b).state = Sponge.addFrom Keccak.addBit (8 * k.val) (byteBits b) st.state := by
  funext x y z
  have hz : z.val < 64 := z.val_lt
  have hbits : bit ((if (⟨k.val / 8, by omega⟩ : Fin 25) = lane x y then
      b.setWidth 64 <<< (8 * (k.val % 8)) else 0).getLsbD z.val) =
      if 8 * k.val ≤ Keccak.position x y z then
        (byteBits b).getD (Keccak.position x y z - 8 * k.val) 0 else 0 := by
    rw [position_lane, byteBits_getD]
    by_cases hlane : (⟨k.val / 8, by omega⟩ : Fin 25) = lane x y
    · have hval : k.val / 8 = (lane x y).val := congrArg Fin.val hlane
      rw [if_pos hlane, getLsbD_shifted b _ _ hz]
      by_cases hle : 8 * (k.val % 8) ≤ z.val
      · have hsub : 64 * (lane x y).val + z.val - 8 * k.val = z.val - 8 * (k.val % 8) := by omega
        rw [if_pos (by omega), hsub, decide_eq_true hle, Bool.true_and]
      · rw [if_neg (by omega), decide_eq_false hle]
        rfl
    · have hval : k.val / 8 ≠ (lane x y).val := fun h => hlane (Fin.ext h)
      rw [if_neg hlane]
      by_cases hle : 8 * k.val ≤ 64 * (lane x y).val + z.val
      · rw [if_pos hle, BitVec.getLsbD_of_ge b _ (by omega)]
        exact congrArg bit (BitVec.getLsbD_zero)
      · rw [if_neg hle]
        exact congrArg bit (BitVec.getLsbD_zero)
  rw [Keccak.addFrom_addBit, ← hbits, state, xorByte, getElem_xorAt, state]
  split
  · rw [BitVec.getLsbD_xor, bit_xor]
  · have hzero : bit ((0 : BitVec 64).getLsbD z.val) = 0 := congrArg bit BitVec.getLsbD_zero
    rw [hzero, add_zero]

end Lanes

/-! ### The input -/

namespace Sha3Ctx

/-- The state of the sponge behind a context, and the place of the next bit. -/
def sponge (c : Sha3Ctx) : Keccak.State 6 × ℕ := (c.st.state, 8 * c.pt)

theorem sponge_eq (c : Sha3Ctx) : c.sponge = (c.st.state, 8 * c.pt) := rfl

end Sha3Ctx

/-- Symbols fed to the sponge with blocks of `rsiz` bytes. -/
def feedBits (rsiz : ℕ) (s : Keccak.State 6 × ℕ) (l : List (ZMod 2)) : Keccak.State 6 × ℕ :=
  Sponge.feeds Keccak.f Keccak.addBit (8 * rsiz) s l

theorem feedBits_append (rsiz : ℕ) (s : Keccak.State 6 × ℕ) (l l' : List (ZMod 2)) :
    feedBits rsiz s (l ++ l') = feedBits rsiz (feedBits rsiz s l) l' :=
  Sponge.feeds_append _ _ _

theorem sha3UpdateByte_feeds (c : Sha3Ctx) (b : Byte) :
    (sha3UpdateByte c b).sponge = feedBits c.rsiz c.sponge (byteBits b) := by
  have hpt := c.hpt
  rw [sha3UpdateByte]
  by_cases hfull : c.pt + 1 ≥ c.rsiz
  · have hlength : 8 * c.pt + (byteBits b).length = 8 * c.rsiz := by
      rw [byteBits_length]
      omega
    rw [dif_pos hfull, feedBits, c.sponge_eq, Sponge.feeds_fill _ _ _ (by omega) hlength,
      ← Lanes.state_xorByte c.st ⟨c.pt, c.pt_lt⟩, ← state_sha3Keccakf]
    rfl
  · have hlength : 8 * c.pt + (byteBits b).length < 8 * c.rsiz := by
      rw [byteBits_length]
      omega
    rw [dif_neg hfull, feedBits, c.sponge_eq, Sponge.feeds_within _ _ _ hlength,
      ← Lanes.state_xorByte c.st ⟨c.pt, c.pt_lt⟩, byteBits_length]
    rfl

theorem sha3UpdateByte_rsiz (c : Sha3Ctx) (b : Byte) :
    (sha3UpdateByte c b).rsiz = c.rsiz ∧ (sha3UpdateByte c b).mdlen = c.mdlen := by
  rw [sha3UpdateByte]
  split
  · exact ⟨rfl, rfl⟩
  · exact ⟨rfl, rfl⟩

/-- The input of a context is fed to the sponge bit by bit. -/
theorem sha3Update_feeds (c : Sha3Ctx) (data : List Byte) :
    (sha3Update c data).rsiz = c.rsiz ∧ (sha3Update c data).mdlen = c.mdlen ∧
      (sha3Update c data).sponge = feedBits c.rsiz c.sponge (bitsOf data) := by
  induction data generalizing c with
  | nil => exact ⟨rfl, rfl, rfl⟩
  | cons b data ih =>
    obtain ⟨hrsiz, hmdlen⟩ := sha3UpdateByte_rsiz c b
    obtain ⟨ihrsiz, ihmdlen, ihsponge⟩ := ih (sha3UpdateByte c b)
    refine ⟨ihrsiz.trans hrsiz, ihmdlen.trans hmdlen, ?_⟩
    have hbits : bitsOf (b :: data) = byteBits b ++ bitsOf data := List.flatMap_cons
    rw [sha3Update, List.foldl_cons, ← sha3Update, ihsponge, hrsiz, sha3UpdateByte_feeds, hbits]
    exact (feedBits_append _ _ _ _).symm

/-- Input in several calls is the input in one call. -/
theorem sha3Update_append (c : Sha3Ctx) (l l' : List Byte) :
    sha3Update c (l ++ l') = sha3Update (sha3Update c l) l' :=
  List.foldl_append

theorem sha3Update_flatten (c : Sha3Ctx) (chunks : List (List Byte)) :
    chunks.foldl sha3Update c = sha3Update c chunks.flatten := by
  induction chunks generalizing c with
  | nil => rfl
  | cons l chunks ih => rw [List.foldl_cons, ih, List.flatten_cons, sha3Update_append]

/-! ### The end of the input -/

/-- The suffix of SHA-3 and the padding, for a block with room for more than
the suffix. -/
theorem final_bits {rsiz pt n : ℕ} (hpt : pt < rsiz) (hn : 8 * n % (8 * rsiz) = 8 * pt) :
    ([0, 1] : List (ZMod 2)) ++ Sponge.pad (8 * rsiz) 1 0 (8 * n + 2) =
      [0, 1, 1] ++ List.replicate (8 * rsiz - 8 * pt - 4) 0 ++ [1] := by
  have hmod : (8 * n + 2 + 2) % (8 * rsiz) = 8 * pt + 4 := by
    rw [Nat.add_assoc, Nat.add_mod, hn, Nat.mod_eq_of_lt (by omega : 2 + 2 < 8 * rsiz),
      Nat.mod_eq_of_lt (by omega)]
  have hcount : (8 * rsiz - (8 * n + 2 + 2) % (8 * rsiz)) % (8 * rsiz) =
      8 * rsiz - 8 * pt - 4 := by
    rw [hmod, Nat.mod_eq_of_lt (by omega)]
    omega
  rw [Sponge.pad, hcount]
  rfl

/-- The two bytes of `sha3_final` are the suffix and the padding. -/
theorem final_feeds {rsiz pt : ℕ} (hpt : pt < rsiz) (A : Keccak.State 6) :
    feedBits rsiz (A, 8 * pt) ([0, 1, 1] ++ List.replicate (8 * rsiz - 8 * pt - 4) 0 ++ [1]) =
      (Keccak.f (Sponge.addFrom Keccak.addBit (8 * (rsiz - 1)) (byteBits 0x80)
        (Sponge.addFrom Keccak.addBit (8 * pt) (byteBits 0x06) A)), 0) := by
  have hsix : byteBits 0x06 = [0, 1, 1] ++ List.replicate 5 0 := by decide
  have hlast : byteBits 0x80 = List.replicate 7 0 ++ [1] := by decide
  have hlength : 8 * pt + ([0, 1, 1] ++ List.replicate (8 * rsiz - 8 * pt - 4) (0 : ZMod 2) ++
      [1]).length = 8 * rsiz := by
    simp only [List.length_append, List.length_replicate, List.length_cons, List.length_nil]
    omega
  have hplace : 8 * (rsiz - 1) + (List.replicate 7 (0 : ZMod 2)).length =
      8 * pt + ([0, 1, 1] ++ List.replicate (8 * rsiz - 8 * pt - 4) (0 : ZMod 2)).length := by
    simp only [List.length_append, List.length_replicate, List.length_cons, List.length_nil]
    omega
  rw [feedBits, Sponge.feeds_fill _ _ _ (by omega) hlength, hsix, hlast]
  -- zeros change nothing, and the last bits are at the same place
  simp only [Sponge.addFrom_append, Sponge.addFrom_zero Keccak.addBit_zero]
  rw [hplace]

/-! ### The output -/

theorem range_mul_eight {α : Type} (g : ℕ → α) (n : ℕ) :
    (List.range (8 * n)).map g =
      (List.range n).flatMap fun i => (List.range 8).map fun j => g (8 * i + j) := by
  induction n with
  | zero => rfl
  | succ n ih =>
    have hlast : List.range (n + 1) = List.range n ++ [n] := List.range_succ
    rw [Nat.mul_succ, List.range_add, List.map_append, ih, hlast, List.flatMap_append,
      List.flatMap_singleton, List.map_map]
    rfl

/-- A bit of the union, in the string of the state. -/
theorem string_byte (st : Lanes) (k : Fin 200) {j : ℕ} (hj : j < 8) :
    st.state ((8 * k.val + j) / 2 ^ 6 : ℕ) ((8 * k.val + j) / 2 ^ 6 / 5 : ℕ)
      (8 * k.val + j : ℕ) = bit ((st.byte k).getLsbD j) := by
  have hlanes : ∀ k : Fin 25, Lanes.lane (k.val : ℕ) (k.val / 5 : ℕ) = k := by decide
  have hword : (8 * k.val + j) / 2 ^ 6 = k.val / 8 := by omega
  have hlane := hlanes ⟨k.val / 8, by omega⟩
  have hval : ((8 * k.val + j : ℕ) : ZMod (2 ^ 6)).val = 8 * (k.val % 8) + j := by
    rw [ZMod.val_natCast]
    omega
  rw [hword, Lanes.state, hval, Lanes.byte, byteOf, BitVec.getLsbD_extractLsb',
    decide_eq_true hj, Bool.true_and]
  simp only at hlane
  simp only [hlane]
  rfl

/-- The digest is the beginning of the string. -/
theorem bitsOf_bytes (st : Lanes) {n : ℕ} (hn : n ≤ 200) :
    bitsOf ((List.finRange n).map fun i => st.byte (i.castLE hn)) =
      (Keccak.string st.state).take (8 * n) := by
  have hmin : min (8 * n) (25 * 2 ^ 6) = 8 * n := by omega
  rw [Keccak.string, ← List.map_take, List.take_range, hmin, range_mul_eight]
  have hrange : List.range n = (List.finRange n).map Fin.val := by simp
  rw [bitsOf, List.flatMap_map, hrange, List.flatMap_map]
  refine List.flatMap_congr fun i _ => ?_
  refine List.map_congr_left fun j hj => ?_
  exact (string_byte st (i.castLE hn) (List.mem_range.mp hj)).symm

/-! ### The digest -/

/-- The context was initialised and then fed `input`. -/
def Sha3Ctx.Fed (c : Sha3Ctx) (input : List Byte) : Prop :=
  feedBits c.rsiz (0, 0) (bitsOf input) = (c.st.state, 8 * c.pt)

theorem fed_init (mdlen : Fin 100) : (sha3Init mdlen).Fed [] := by
  have hstate : (sha3Init mdlen).st.state = 0 := by
    funext x y z
    have hword : (sha3Init mdlen).st[Lanes.lane x y] = 0 := Vector.getElem_replicate _
    rw [Lanes.state, hword]
    exact congrArg bit BitVec.getLsbD_zero
  rw [Sha3Ctx.Fed, hstate]
  rfl

namespace Sha3Ctx.Fed

variable {c : Sha3Ctx} {input : List Byte}

theorem update (h : c.Fed input) (data : List Byte) : (sha3Update c data).Fed (input ++ data) := by
  obtain ⟨hrsiz, -, hsponge⟩ := sha3Update_feeds c data
  have hbits : bitsOf (input ++ data) = bitsOf input ++ bitsOf data := List.flatMap_append
  rw [Sha3Ctx.Fed, ← Sha3Ctx.sponge_eq, hsponge, hrsiz, hbits, feedBits_append, h]
  rfl

/-- Where the context is in its block. -/
theorem place (h : c.Fed input) : 8 * input.length % (8 * c.rsiz) = 8 * c.pt := by
  have hpos : 0 < 8 * c.rsiz := by
    have := c.hpt
    omega
  have hsnd : (feedBits c.rsiz (0, 0) (bitsOf input)).2 = (0 + (bitsOf input).length) %
      (8 * c.rsiz) := Sponge.feeds_snd hpos _ _ _ hpos
  rw [h, Nat.zero_add, bitsOf_length] at hsnd
  exact hsnd.symm

/-- `sha3_final` leaves the state of the sponge after the whole message. -/
theorem final (h : c.Fed input) : (sha3Final c).2.st.state =
    Sponge.hash Keccak.f Keccak.addBit (8 * c.rsiz) 1 0 0 (bitsOf input ++ [0, 1]) := by
  have hpos : 0 < 8 * c.rsiz := by
    have := c.hpt
    omega
  have hlength : (bitsOf input ++ [0, 1]).length = 8 * input.length + 2 := by
    rw [List.length_append, bitsOf_length]
    rfl
  have hsplit : bitsOf input ++ [0, 1] ++
      Sponge.pad (8 * c.rsiz) 1 0 (bitsOf input ++ [0, 1]).length =
      bitsOf input ++ ([0, 1, 1] ++ List.replicate (8 * c.rsiz - 8 * c.pt - 4) 0 ++ [1]) := by
    rw [hlength, List.append_assoc, final_bits c.hpt h.place]
  -- the padded message is fed bit by bit, the suffix and the padding last
  have hall : feedBits c.rsiz (0, 0) (bitsOf input ++ [0, 1] ++
      Sponge.pad (8 * c.rsiz) 1 0 (bitsOf input ++ [0, 1]).length) =
      (Sponge.hash Keccak.f Keccak.addBit (8 * c.rsiz) 1 0 0 (bitsOf input ++ [0, 1]), 0) :=
    Sponge.feeds_eq_absorb hpos (Sponge.padded_length hpos _) 0
  have hlast : feedBits c.rsiz (0, 0) (bitsOf input ++ ([0, 1, 1] ++
      List.replicate (8 * c.rsiz - 8 * c.pt - 4) 0 ++ [1])) =
      feedBits c.rsiz (c.st.state, 8 * c.pt) ([0, 1, 1] ++
        List.replicate (8 * c.rsiz - 8 * c.pt - 4) 0 ++ [1]) := by
    rw [← h, feedBits_append]
  have hend : (sha3Final c).2.st.state =
      Keccak.f (Sponge.addFrom Keccak.addBit (8 * (c.rsiz - 1)) (byteBits 0x80)
        (Sponge.addFrom Keccak.addBit (8 * c.pt) (byteBits 0x06) c.st.state)) := by
    rw [sha3Final, state_sha3Keccakf, Lanes.state_xorByte, Lanes.state_xorByte]
  rw [hsplit, hlast, final_feeds c.hpt] at hall
  rw [hend]
  exact congrArg Prod.fst hall

/-- The digest, if one state has enough bytes for it. -/
theorem digest (h : c.Fed input) (hmdlen : 3 * c.mdlen ≤ 200) :
    bitsOf (sha3Final c).1 = Keccak.sha3 (8 * c.mdlen) (bitsOf input) := by
  have hsize : 1600 - 2 * (8 * c.mdlen) = 8 * c.rsiz := by
    have := c.hrsiz
    omega
  have hrsiz := c.rsiz_le
  have hbytes : bitsOf (sha3Final c).1 =
      (Keccak.string (sha3Final c).2.st.state).take (8 * c.mdlen) := bitsOf_bytes _ _
  have hstring : 8 * c.rsiz ≤ (Keccak.string (sha3Final c).2.st.state).length := by
    rw [Keccak.string_length]
    omega
  rw [Keccak.sha3, hsize, ← h.final, Sponge.squeeze_le (by omega) hstring, hbytes]

end Sha3Ctx.Fed

theorem sha3Update_mdlen (c : Sha3Ctx) (data : List Byte) :
    (sha3Update c data).mdlen = c.mdlen := (sha3Update_feeds c data).2.1

/-- **`sha3.cpp` computes SHA-3**: however the input is cut into calls of
`sha3_update`, the digest is the SHA-3 of all of it. -/
theorem sha3_chunks (chunks : List (List Byte)) (mdlen : Fin 100) (h : 3 * mdlen.val ≤ 200) :
    bitsOf (sha3Final (chunks.foldl sha3Update (sha3Init mdlen))).1 =
      Keccak.sha3 (8 * mdlen.val) (bitsOf chunks.flatten) := by
  rw [sha3Update_flatten]
  have hfed := (fed_init mdlen).update chunks.flatten
  have hmdlen : (sha3Update (sha3Init mdlen) chunks.flatten).mdlen = mdlen.val :=
    sha3Update_mdlen _ _
  rw [hfed.digest (by rwa [hmdlen]), hmdlen, List.nil_append]

theorem sha3_chunks_two :
    bitsOf (sha3Final (([[0x61], [0x62, 0x63]] : List (List Byte)).foldl sha3Update
      (sha3Init 64))).1 = Keccak.sha3 512 (bitsOf [0x61, 0x62, 0x63]) :=
  sha3_chunks [[0x61], [0x62, 0x63]] 64 (by decide)

/-! ### The hash of an enclave -/

/-- `hash_init`. -/
def hashInit : Sha3Ctx := sha3Init 64

/-- `hash_extend`. -/
def hashExtend (hashCtx : Sha3Ctx) (bytes : List Byte) : Sha3Ctx := sha3Update hashCtx bytes

/-- `hash_extend_page`. -/
def hashExtendPage (hashCtx : Sha3Ctx) (m : Mem) (ptr : Paddr) : Sha3Ctx :=
  sha3Update hashCtx (readBytes m ptr riscvPgsize)

/-- `hash_finalize`. -/
def hashFinalize (hashCtx : Sha3Ctx) : List Byte := (sha3Final hashCtx).1

/-- The hash context after the bytes `hashed`. -/
def hashCtxOf (hashed : List Byte) : Sha3Ctx := hashExtend hashInit hashed

theorem hashCtxOf_hashExtend (st : WalkState) (bytes : List Byte) :
    hashCtxOf (st.hashExtend bytes).hashed = hashExtend (hashCtxOf st.hashed) bytes :=
  sha3Update_append _ _ _

theorem hashCtxOf_hashExtendPage (st : WalkState) (m : Mem) (ptr : Paddr) :
    hashCtxOf (st.hashExtendPage m ptr).hashed = hashExtendPage (hashCtxOf st.hashed) m ptr :=
  sha3Update_append _ _ _

/-- The 64 bytes of `Keystone::hash`, once an enclave has been measured. -/
def Keystone.digest (s : Keystone) : Option (List Byte) :=
  s.hash.map fun hashed => hashFinalize (hashCtxOf hashed)

theorem hashFinalize_length (hashCtx : Sha3Ctx) :
    (hashFinalize hashCtx).length = hashCtx.mdlen := by
  rw [hashFinalize, sha3Final]
  simp

theorem hashFinalize_bits (hashed : List Byte) :
    bitsOf (hashFinalize (hashCtxOf hashed)) = Keccak.sha3 512 (bitsOf hashed) := by
  have hmdlen : (hashCtxOf hashed).mdlen = 64 := sha3Update_mdlen _ _
  have hfed : (hashCtxOf hashed).Fed hashed := (fed_init 64).update hashed
  have hdigest := hfed.digest (by omega)
  rwa [hmdlen] at hdigest

theorem exec_validateAndHashEnclave (args : RuntimeParams) (cargs : KeystoneHashEnclave)
    (s : Keystone) : exec (validateAndHashEnclave args cargs) s =
      if (validateTable s.mem cargs s.rootPageTable args.bytes).1 = -1 then
        (.ok .keystoneError, s)
      else (.ok .keystoneSuccess, { s with
        hash := some (validateTable s.mem cargs s.rootPageTable args.bytes).2.hashed }) := by
  have hwalk : validateAndHashEpm s.mem cargs riscvPglevelTop s.rootPageTable 0#64 0
      ⟨args.bytes, 0#64, 0#64⟩ = validateTable s.mem cargs s.rootPageTable args.bytes := rfl
  rw [validateAndHashEnclave, exec_bind_ok (exec_get s)]
  simp only [hwalk]
  by_cases hvalid : (validateTable s.mem cargs s.rootPageTable args.bytes).1 = -1
  · rw [if_pos hvalid, if_pos hvalid, exec_pure]
  · rw [if_neg hvalid, if_neg hvalid, exec_bind_ok (exec_modify _ _), exec_pure]

/-- **What the hash of an enclave is**: a measurement that succeeds leaves the
SHA3-512 of the parameters and of the runs of mapped pages. -/
theorem measurement_digest (args : RuntimeParams) (cargs : KeystoneHashEnclave) (s : Keystone)
    (h : (exec (validateAndHashEnclave args cargs) s).1 = .ok .keystoneSuccess) :
    ∃ digest, (exec (validateAndHashEnclave args cargs) s).2.digest = some digest ∧
      digest.length = 64 ∧
      bitsOf digest = Keccak.sha3 512 (bitsOf (args.bytes ++
        RunStream.stream leBytes (RunStream.runs nextPage (image s.mem s.rootPageTable)))) := by
  rw [exec_validateAndHashEnclave] at h ⊢
  by_cases hvalid : (validateTable s.mem cargs s.rootPageTable args.bytes).1 = -1
  · rw [if_pos hvalid] at h
    cases h
  · rw [if_neg hvalid]
    refine ⟨_, rfl, ?_, ?_⟩
    · exact (hashFinalize_length _).trans (sha3Update_mdlen _ _)
    · rw [hashFinalize_bits, validate_hashed _ _ hvalid]

/-- A state with the small table of three pages. -/
def measuredState : Keystone where
  mem := smallTable 1 2 4 0 0#64
  rootPageTable := frameAddr 0x10 0
  startAddr := frameAddr 0x10 0
  epmFreeList := frameAddr 0x16 0
  utmFreeList := 0x20000#64
  untrustedStart := 0#64
  untrustedSize := 0#64
  hash := none
  epmPages := []
  utmPages := []

theorem measurement_digest_small :
    ∃ digest, (exec (validateAndHashEnclave ⟨0#64, 0#64, 0#64, 0#64⟩ smallTableArgs)
        measuredState).2.digest = some digest ∧ digest.length = 64 ∧
      bitsOf digest = Keccak.sha3 512 (bitsOf (RuntimeParams.bytes ⟨0#64, 0#64, 0#64, 0#64⟩ ++
        RunStream.stream leBytes (RunStream.runs nextPage
          (image measuredState.mem measuredState.rootPageTable)))) := by
  refine measurement_digest ⟨0#64, 0#64, 0#64, 0#64⟩ smallTableArgs measuredState ?_
  have haccepted := smallTable_accepted (w := 0#64) (.inl rfl) (show 0 < 512 by decide)
    (RuntimeParams.bytes ⟨0#64, 0#64, 0#64, 0#64⟩)
  rw [exec_validateAndHashEnclave]
  exact congrArg Prod.fst (if_neg haccepted)

end KeystoneSdk
