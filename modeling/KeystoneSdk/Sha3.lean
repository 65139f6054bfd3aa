/-
The SHA-3 of `sha3.cpp`, which the host measures enclaves with; the copy of the
verifier, `sha3.c`, is the same.

The union `st` of a context is its 25 words; byte `k` of it is byte `k % 8` of
word `k / 8`, as on the little-endian machines the library is built for.

* `sha3Keccakf`, `sha3Update`, `sha3Final` — the compression function and the
  calls over it;
* `getElem_foldl_xorAt`, `foldl_moveLane` — what the loops that change the words
  in place leave of each.
-/
import KeystoneSdk.ByteMemory

open ByteMemory

namespace KeystoneSdk

/-- `uint64_t st[25]`. -/
abbrev Lanes : Type := Vector (BitVec 64) 25

/-- `KECCAKF_ROUNDS`. -/
abbrev keccakfRounds : ℕ := 24

/-- `ROTL64`. -/
def rotl64 (x : BitVec 64) (y : ℕ) : BitVec 64 := (x <<< y) ||| (x >>> (64 - y))

def keccakfRndc : Vector (BitVec 64) keccakfRounds := #v[
  0x0000000000000001, 0x0000000000008082, 0x800000000000808a,
  0x8000000080008000, 0x000000000000808b, 0x0000000080000001,
  0x8000000080008081, 0x8000000000008009, 0x000000000000008a,
  0x0000000000000088, 0x0000000080008009, 0x000000008000000a,
  0x000000008000808b, 0x800000000000008b, 0x8000000000008089,
  0x8000000000008003, 0x8000000000008002, 0x8000000000000080,
  0x000000000000800a, 0x800000008000000a, 0x8000000080008081,
  0x8000000000008080, 0x0000000080000001, 0x8000000080008008]

def keccakfRotc : List ℕ := [
  1, 3, 6, 10, 15, 21, 28, 36, 45, 55, 2, 14,
  27, 41, 56, 8, 25, 43, 62, 18, 39, 61, 20, 44]

def keccakfPiln : List (Fin 25) := [
  10, 7, 11, 17, 18, 3, 5, 16, 8, 21, 24, 4,
  15, 23, 19, 13, 12, 2, 20, 14, 22, 9, 6, 1]

namespace Lanes

/-- The lane in column `i` of the row that starts at `5 * j`. -/
def place (i j : Fin 5) : Fin 25 := ⟨5 * j + i, by omega⟩

/-- `st[k] ^= t`. -/
def xorAt (st : Lanes) (k : Fin 25) (t : BitVec 64) : Lanes := st.set k (st[k] ^^^ t)

/-- The first loop of Theta: the parities `bc` of the columns. -/
def columns (st : Lanes) : Vector (BitVec 64) 5 :=
  Vector.ofFn fun i => st[i.val] ^^^ st[i.val + 5] ^^^ st[i.val + 10] ^^^ st[i.val + 15] ^^^
    st[i.val + 20]

/-- Theta. -/
def theta (st : Lanes) : Lanes :=
  let bc := st.columns
  (List.finRange 5).foldl (fun st i =>
    let t := bc[(i.val + 4) % 5] ^^^ rotl64 bc[(i.val + 1) % 5] 1
    (List.finRange 5).foldl (fun st j => st.xorAt (place i j) t) st) st

/-- One round of the loop of Rho Pi: the lane that is overwritten is the next
one to move. -/
def moveLane (s : Lanes × BitVec 64) (move : Fin 25 × ℕ) : Lanes × BitVec 64 :=
  (s.1.set move.1 (rotl64 s.2 move.2), s.1[move.1])

/-- Rho Pi. -/
def rhoPi (st : Lanes) : Lanes := ((keccakfPiln.zip keccakfRotc).foldl moveLane (st, st[1])).1

/-- The loops of Chi for the row that starts at `5 * j`. -/
def chiLoop (st : Lanes) (j : Fin 5) : Lanes :=
  let bc : Vector (BitVec 64) 5 := Vector.ofFn fun i => st[place i j]
  (List.finRange 5).foldl (fun st i =>
    st.xorAt (place i j) (~~~bc[(i.val + 1) % 5] &&& bc[(i.val + 2) % 5])) st

/-- Chi. -/
def chi (st : Lanes) : Lanes := (List.finRange 5).foldl chiLoop st

/-- Iota. -/
def iota (st : Lanes) (r : Fin keccakfRounds) : Lanes := st.xorAt 0 keccakfRndc[r]

/-- A round of `sha3_keccakf`. -/
def round (st : Lanes) (r : Fin keccakfRounds) : Lanes := st.theta.rhoPi.chi.iota r

/-- `st.b[k]`. -/
def byte (st : Lanes) (k : Fin 200) : Byte :=
  byteOf st[k.val / 8] (k % 8)

/-- `st.b[k] ^= b`. -/
def xorByte (st : Lanes) (k : Fin 200) (b : Byte) : Lanes :=
  st.xorAt ⟨k / 8, by omega⟩ (b.setWidth 64 <<< (8 * (k.val % 8)))

/-! ### Loops over words -/

theorem getElem_xorAt (st : Lanes) (k k' : Fin 25) (t : BitVec 64) :
    (st.xorAt k t)[k'] = if k = k' then st[k'] ^^^ t else st[k'] := by
  by_cases h : k = k'
  · subst h
    rw [if_pos rfl]
    exact Vector.getElem_set_self _
  · rw [if_neg h]
    exact Vector.getElem_set_ne _ _ fun heq => h (Fin.ext heq)

/-- A loop that changes different words, each by its own value. -/
theorem getElem_foldl_xorAt {ι : Type} (l : List ι) (dst : ι → Fin 25) (t : ι → BitVec 64)
    (hdst : (l.map dst).Nodup) (st : Lanes) (k : Fin 25) :
    (k ∉ l.map dst → (l.foldl (fun st i => st.xorAt (dst i) (t i)) st)[k] = st[k]) ∧
      ∀ i ∈ l, dst i = k → (l.foldl (fun st i => st.xorAt (dst i) (t i)) st)[k] = st[k] ^^^ t i := by
  induction l generalizing st with
  | nil => exact ⟨fun _ => rfl, fun i hi => absurd hi List.not_mem_nil⟩
  | cons a l ih =>
    obtain ⟨hkept, hmoved⟩ := ih (List.nodup_cons.mp hdst).2 (st.xorAt (dst a) (t a))
    refine ⟨fun hk => ?_, fun i hi hik => ?_⟩
    · rw [List.map_cons, List.mem_cons, not_or] at hk
      rw [List.foldl_cons, hkept hk.2, getElem_xorAt, if_neg fun h => hk.1 h.symm]
    · rw [List.foldl_cons]
      rcases List.mem_cons.mp hi with rfl | hi
      · have hout : k ∉ l.map dst := by
          rw [← hik]
          exact (List.nodup_cons.mp hdst).1
        rw [hkept hout, getElem_xorAt, if_pos hik]
      · have hne : dst a ≠ k := by
          intro h
          refine (List.nodup_cons.mp hdst).1 ?_
          rw [h, ← hik]
          exact List.mem_map_of_mem hi
        rw [hmoved i hi hik, getElem_xorAt, if_neg hne]

theorem theta_eq (st : Lanes) :
    st.theta = ((List.finRange 5).flatMap fun i => (List.finRange 5).map fun j => (i, j)).foldl
      (fun s a => s.xorAt (place a.1 a.2)
        (st.columns[(a.1.val + 4) % 5] ^^^ rotl64 st.columns[(a.1.val + 1) % 5] 1)) st := by
  rw [List.foldl_flatMap]
  simp only [List.foldl_map]
  rfl

theorem getElem_theta (st : Lanes) (i j : Fin 5) :
    st.theta[place i j] = st[place i j] ^^^
      (st.columns[(i.val + 4) % 5] ^^^ rotl64 st.columns[(i.val + 1) % 5] 1) := by
  rw [theta_eq]
  refine (getElem_foldl_xorAt _ (fun a : Fin 5 × Fin 5 => place a.1 a.2) _ ?_ st _).2 (i, j) ?_ rfl
  · decide
  · revert i j
    decide

/-- A chain of moves with different places: each place gets what was carried,
and what was at the place before is carried on. -/
theorem foldl_moveLane (l : List (Fin 25 × ℕ)) (hl : (l.map Prod.fst).Nodup) (st : Lanes)
    (t : BitVec 64) :
    (∀ k ∉ l.map Prod.fst, (l.foldl moveLane (st, t)).1[k] = st[k]) ∧
      ∀ (i : ℕ) (hi : i < l.length), (l.foldl moveLane (st, t)).1[l[i].1] =
        rotl64 (if i = 0 then t else st[l[i - 1].1]) l[i].2 := by
  induction l generalizing st t with
  | nil => exact ⟨fun k _ => rfl, fun i hi => absurd hi (Nat.not_lt_zero i)⟩
  | cons a l ih =>
    obtain ⟨hkept, hmoved⟩ := ih (List.nodup_cons.mp hl).2 (st.set a.1 (rotl64 t a.2)) st[a.1]
    have hfirst : a.1 ∉ l.map Prod.fst := (List.nodup_cons.mp hl).1
    have hother : ∀ k : Fin 25, k ≠ a.1 → (st.set a.1 (rotl64 t a.2))[k] = st[k] :=
      fun k hk => Vector.getElem_set_ne _ _ fun heq => hk (Fin.ext heq.symm)
    refine ⟨fun k hk => ?_, fun i hi => ?_⟩
    · rw [List.map_cons, List.mem_cons, not_or] at hk
      rw [List.foldl_cons, moveLane, hkept k hk.2, hother k hk.1]
    · rw [List.foldl_cons, moveLane]
      cases i with
      | zero =>
        rw [if_pos rfl]
        refine (hkept _ hfirst).trans ?_
        exact Vector.getElem_set_self _
      | succ i =>
        have hi' : i < l.length := Nat.lt_of_succ_lt_succ hi
        refine (hmoved i hi').trans ?_
        rw [if_neg (Nat.succ_ne_zero i)]
        cases i with
        | zero => rfl
        | succ i =>
          -- the source of the move was not overwritten by the first one
          have hne : l[i].1 ≠ a.1 := by
            intro heq
            refine hfirst ?_
            rw [← heq]
            exact List.mem_map_of_mem (List.getElem_mem _)
          rw [if_neg (Nat.succ_ne_zero i)]
          congr 1
          exact hother _ hne

end Lanes

/-- `sha3_keccakf`. -/
def sha3Keccakf (st : Lanes) : Lanes := (List.finRange keccakfRounds).foldl Lanes.round st

/-- `sha3_ctx_t`.  The next byte goes to the place `pt`, which is one of the
`rsiz` places of a block. -/
structure Sha3Ctx where
  st : Lanes
  pt : ℕ
  rsiz : ℕ
  mdlen : ℕ
  hrsiz : rsiz + 2 * mdlen = 200
  hpt : pt < rsiz

namespace Sha3Ctx

theorem rsiz_le (c : Sha3Ctx) : c.rsiz ≤ 200 := by
  have := c.hrsiz
  omega

theorem pt_lt (c : Sha3Ctx) : c.pt < 200 := lt_of_lt_of_le c.hpt c.rsiz_le

theorem mdlen_lt (c : Sha3Ctx) : c.mdlen < 100 := by
  have := c.hrsiz
  have := c.hpt
  omega

end Sha3Ctx

/-- `sha3_init`. -/
def sha3Init (mdlen : Fin 100) : Sha3Ctx where
  st := Vector.replicate 25 0
  pt := 0
  rsiz := 200 - 2 * mdlen
  mdlen := mdlen
  hrsiz := by omega
  hpt := by omega

/-- One round of the loop of `sha3_update`. -/
def sha3UpdateByte (c : Sha3Ctx) (b : Byte) : Sha3Ctx :=
  let st := c.st.xorByte ⟨c.pt, c.pt_lt⟩ b
  if h : c.pt + 1 ≥ c.rsiz then
    { c with st := sha3Keccakf st, pt := 0, hpt := lt_of_le_of_lt (Nat.zero_le _) c.hpt }
  else { c with st := st, pt := c.pt + 1, hpt := Nat.lt_of_not_le h }

/-- `sha3_update`. -/
def sha3Update (c : Sha3Ctx) (data : List Byte) : Sha3Ctx := data.foldl sha3UpdateByte c

/-- `sha3_final`: the digest, and the context it leaves. -/
def sha3Final (c : Sha3Ctx) : List Byte × Sha3Ctx :=
  let last : Fin 200 := ⟨c.rsiz - 1, by have := c.rsiz_le; have := c.hpt; omega⟩
  let st := sha3Keccakf ((c.st.xorByte ⟨c.pt, c.pt_lt⟩ 0x06).xorByte last 0x80)
  ((List.finRange c.mdlen).map fun i => st.byte (i.castLE (by have := c.mdlen_lt; omega)),
    { c with st := st })

/-- `sha3`. -/
def sha3 (input : List Byte) (mdlen : Fin 100) : List Byte :=
  (sha3Final (sha3Update (sha3Init mdlen) input)).1

end KeystoneSdk
