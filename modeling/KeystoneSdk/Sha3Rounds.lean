/-
`sha3_keccakf` is Keccak-f[1600].

The loops update the 25 words in place, and the tables say where each word goes
and how far it is turned.  Read as a state of Keccak, what the loops make of
the words is what the five steps make of the state.

* `state_rhoPi` — the chain of moves, each of which overwrites the next word to
  move, is `rho` and then `pi`; the tables are those of the two steps;
* **`state_sha3Keccakf`** — the rounds are those of Keccak-f[1600];
* **`sha3Keccakf_bijective`** — so the compression function is a permutation.
-/
import KeystoneSdk.Keccak
import KeystoneSdk.Sha3

open ByteMemory

namespace KeystoneSdk

/-- A bit, as an element of the field of two elements. -/
def bit (b : Bool) : ZMod 2 := if b then 1 else 0

theorem bit_xor (a b : Bool) : bit (a ^^ b) = bit a + bit b := by
  revert a b
  decide

theorem bit_and (a b : Bool) : bit (a && b) = bit a * bit b := by
  revert a b
  decide

theorem bit_not (a : Bool) : bit (!a) = bit a + 1 := by
  revert a
  decide

theorem bit_injective : Function.Injective bit := by
  have hbits : ∀ a b : Bool, bit a = bit b → a = b := by decide
  exact fun a b h => hbits a b h

namespace Lanes

/-- A coordinate of Keccak, as an index of the loops. -/
def index (x : ZMod 5) : Fin 5 := ⟨x.val, x.val_lt⟩

/-- The lane of a column and a row. -/
def lane (x y : ZMod 5) : Fin 25 := place (index x) (index y)

/-- The words as a state of Keccak. -/
def state (st : Lanes) : Keccak.State 6 := fun x y z => bit (st[lane x y].getLsbD z.val)

/-! ### Places -/

theorem place_injective {i j i' j' : Fin 5} (h : place i j = place i' j') : i = i' ∧ j = j' := by
  have hval := congrArg Fin.val h
  simp only [place] at hval
  omega

/-! ### Theta -/

/-- A word turned to the left, bit by bit. -/
theorem rotl64_bit (v : BitVec 64) {y : ℕ} (hy : 0 < y ∧ y < 64) (z : ZMod (2 ^ 6)) :
    (rotl64 v y).getLsbD z.val = v.getLsbD (z - (y : ℕ)).val := by
  have hz : z.val < 64 := z.val_lt
  have hw : (z - (y : ℕ)).val < 64 := (z - (y : ℕ)).val_lt
  have hsum : z.val = ((z - (y : ℕ)).val + y) % 64 := by
    have hval := congrArg ZMod.val (sub_add_cancel z (y : ℕ))
    rw [ZMod.val_add, ZMod.val_natCast, Nat.add_mod_mod] at hval
    exact hval.symm
  rw [rotl64, BitVec.getLsbD_or, BitVec.getLsbD_shiftLeft, BitVec.getLsbD_ushiftRight]
  by_cases h : z.val < y
  · have hsub : 64 - y + z.val = (z - (y : ℕ)).val := by omega
    simp [h, hsub]
  · have hsub : z.val - y = (z - (y : ℕ)).val := by omega
    have hout : v.getLsbD (64 - y + z.val) = false := BitVec.getLsbD_of_ge _ _ (by omega)
    simp [h, hz, hsub, hout]

/-- The columns around a column. -/
theorem index_neighbours : ∀ x : ZMod 5, ((index x).val + 4) % 5 = (x - 1).val ∧
    ((index x).val + 1) % 5 = (x + 1).val ∧ ((index x).val + 2) % 5 = (x + 1 + 1).val := by
  decide

/-- The loops count columns modulo five. -/
theorem getElem_columns {a : ℕ} (bc : Vector (BitVec 64) 5) {x : ZMod 5} (h : a % 5 = x.val) :
    bc[a % 5] = bc[index x] := by
  simp only [h]
  rfl

theorem state_columns (st : Lanes) (x : ZMod 5) (z : ZMod (2 ^ 6)) :
    bit (st.columns[index x].getLsbD z.val) = Keccak.parity st.state x z := by
  have hplace : ∀ (y : ZMod 5) (k : ℕ) (hk : k < 25), k = (index x).val + 5 * y.val →
      st[k] = st[lane x y] := by
    intro y k hk h
    have heq : k = lane x y := by rw [h, Nat.add_comm]; rfl
    simp only [heq]
    rfl
  have hget : st.columns[index x] = st[lane x 0] ^^^ st[lane x 1] ^^^ st[lane x 2] ^^^
      st[lane x 3] ^^^ st[lane x 4] := by
    rw [← hplace 0 (index x).val (by omega) rfl, ← hplace 1 ((index x).val + 5) (by omega) rfl,
      ← hplace 2 ((index x).val + 10) (by omega) rfl, ← hplace 3 ((index x).val + 15) (by omega) rfl,
      ← hplace 4 ((index x).val + 20) (by omega) rfl]
    exact Vector.getElem_ofFn (index x).isLt
  rw [hget]
  simp only [BitVec.getLsbD_xor, bit_xor]
  rfl

theorem state_theta (st : Lanes) : st.theta.state = Keccak.theta st.state := by
  funext x y z
  have hlane : st.theta[lane x y] = st[lane x y] ^^^
      (st.columns[index (x - 1)] ^^^ rotl64 st.columns[index (x + 1)] 1) := by
    refine (getElem_theta st (index x) (index y)).trans ?_
    rw [getElem_columns _ (index_neighbours x).1, getElem_columns _ (index_neighbours x).2.1]
    rfl
  have hturn := rotl64_bit st.columns[index (x + 1)] (by decide : 0 < 1 ∧ 1 < 64) z
  rw [Nat.cast_one] at hturn
  calc bit (st.theta[lane x y].getLsbD z.val)
      = bit (st[lane x y].getLsbD z.val) + (bit (st.columns[index (x - 1)].getLsbD z.val) +
          bit (st.columns[index (x + 1)].getLsbD (z - 1).val)) := by
        rw [hlane, BitVec.getLsbD_xor, BitVec.getLsbD_xor, bit_xor, bit_xor, hturn]
    _ = Keccak.theta st.state x y z := by
        rw [state_columns, state_columns]
        rfl

/-! ### Rho and Pi -/

/-- The lanes that `rhoPi` moves, in the order of the loop. -/
def moves : List (Fin 25 × ℕ) := keccakfPiln.zip keccakfRotc

/-- The tables of the loop are those of the steps of Keccak. -/
theorem moves_spec : ∀ x y : ZMod 5, x = 0 ∧ y = 0 ∨
    ∃ i : Fin 24, (moves.getD i (0, 0)).1 = lane x y ∧
      (if i.val = 0 then 1 else (moves.getD (i - 1) (0, 0)).1) = lane (x + 3 * y) x ∧
      (0 < (moves.getD i (0, 0)).2 ∧ (moves.getD i (0, 0)).2 < 64) ∧
      Keccak.offset (x + 3 * y) x % 64 = (moves.getD i (0, 0)).2 := by
  decide +kernel

/-- Turns count modulo the length of a lane. -/
theorem cast_mod_lane (n : ℕ) : ((n % 64 : ℕ) : ZMod (2 ^ 6)) = n := ZMod.natCast_mod n (2 ^ 6)

theorem state_rhoPi (st : Lanes) : st.rhoPi.state = Keccak.pi (Keccak.rho st.state) := by
  obtain ⟨hkept, hmoved⟩ := foldl_moveLane moves (by decide) st st[1]
  funext x y z
  rcases moves_spec x y with ⟨rfl, rfl⟩ | ⟨i, hdst, hsrc, hturn, hoffset⟩
  · have hzero : st.rhoPi[lane 0 0] = st[lane 0 0] := hkept _ (by decide)
    have hstate : Keccak.pi (Keccak.rho st.state) 0 0 z = bit (st[lane 0 0].getLsbD z.val) := by
      have hoffset : Keccak.offset 0 0 = 0 := by decide
      simp only [Keccak.pi, Keccak.rho, mul_zero, add_zero, hoffset, Nat.cast_zero, sub_zero]
      rfl
    rw [hstate, state, hzero]
  · have hlength : moves.length = 24 := rfl
    have hi : i.val < moves.length := i.isLt
    have hi' : i.val - 1 < moves.length := lt_of_le_of_lt (Nat.sub_le _ _) hi
    rw [List.getD_eq_getElem _ _ hi] at hdst hturn hoffset
    rw [List.getD_eq_getElem _ _ hi'] at hsrc
    have hmove : st.rhoPi[lane x y] = rotl64 st[lane (x + 3 * y) x] moves[i.val].2 := by
      have hcarried : (if i.val = 0 then st[1] else st[moves[i.val - 1].1]) =
          st[lane (x + 3 * y) x] := by
        simp only [← hsrc]
        split
        · rfl
        · rfl
      rw [← hcarried, ← hmoved i.val hi]
      simp only [hdst]
      rfl
    rw [state, hmove, rotl64_bit _ hturn, ← hoffset, cast_mod_lane]
    rfl

/-! ### Chi -/

/-- What the row of a lane makes of it. -/
def mixed (st : Lanes) (x y : ZMod 5) : BitVec 64 :=
  ~~~st[lane (x + 1) y] &&& st[lane (x + 1 + 1) y]

/-- A row only changes its own lanes. -/
theorem getElem_chiLoop (st : Lanes) (j : Fin 5) (x y : ZMod 5) :
    (st.chiLoop j)[lane x y] =
      if index y = j then st[lane x y] ^^^ mixed st x y else st[lane x y] := by
  have hdistinct : ((List.finRange 5).map fun i => place i j).Nodup := by
    refine (List.nodup_finRange 5).map fun i i' h => (place_injective h).1
  obtain ⟨hkept, hmoved⟩ := getElem_foldl_xorAt (List.finRange 5) (fun i => place i j)
    (fun i => ~~~(Vector.ofFn fun i => st[place i j])[(i.val + 1) % 5] &&&
      (Vector.ofFn fun i => st[place i j])[(i.val + 2) % 5]) hdistinct st (lane x y)
  by_cases hy : index y = j
  · subst hy
    rw [if_pos rfl]
    refine (hmoved (index x) (List.mem_finRange _) rfl).trans ?_
    rw [getElem_columns _ (index_neighbours x).2.1, getElem_columns _ (index_neighbours x).2.2]
    have hrow : ∀ x : ZMod 5, (Vector.ofFn fun i => st[place i (index y)])[index x] =
        st[lane x y] := fun x => Vector.getElem_ofFn (index x).isLt
    rw [hrow, hrow]
    rfl
  · rw [if_neg hy]
    refine hkept fun hmem => ?_
    obtain ⟨i, -, hi⟩ := List.mem_map.mp hmem
    exact hy (place_injective hi).2.symm

/-- The rows change one after the other, each by its own lanes only. -/
theorem getElem_chi (st : Lanes) (x y : ZMod 5) :
    st.chi[lane x y] = st[lane x y] ^^^ mixed st x y := by
  have hrows : ∀ (l : List (Fin 5)) (s : Lanes), l.Nodup → ∀ x : ZMod 5,
      (index y ∉ l → (l.foldl chiLoop s)[lane x y] = s[lane x y]) ∧
        (index y ∈ l → (l.foldl chiLoop s)[lane x y] = s[lane x y] ^^^ mixed s x y) := by
    intro l
    induction l with
    | nil => exact fun s _ x => ⟨fun _ => rfl, fun h => absurd h List.not_mem_nil⟩
    | cons j l ih =>
      intro s hl x
      obtain ⟨hj, hl⟩ := List.nodup_cons.mp hl
      obtain ⟨hkept, hmoved⟩ := ih (s.chiLoop j) hl x
      have hstep := getElem_chiLoop s j
      refine ⟨fun hout => ?_, fun hin => ?_⟩
      · rw [List.mem_cons, not_or] at hout
        rw [List.foldl_cons, hkept hout.2, hstep, if_neg hout.1]
      · rw [List.foldl_cons]
        rcases List.mem_cons.mp hin with hrow | hrow
        · rw [hkept (by rwa [hrow]), hstep, if_pos hrow]
        · have hother : index y ≠ j := by
            rintro rfl
            exact hj hrow
          have hmixed : mixed (s.chiLoop j) x y = mixed s x y := by
            rw [mixed, mixed, hstep, hstep, if_neg hother, if_neg hother]
          rw [hmoved hrow, hmixed, hstep, if_neg hother]
  exact (hrows _ st (List.nodup_finRange 5) x).2 (List.mem_finRange _)

theorem state_chi (st : Lanes) : st.chi.state = Keccak.chi st.state := by
  funext x y z
  have hz : z.val < 64 := z.val_lt
  have hnext : x + 1 + 1 = x + 2 := by rw [add_assoc, one_add_one_eq_two]
  calc bit (st.chi[lane x y].getLsbD z.val)
      = bit (st[lane x y].getLsbD z.val) + (bit (st[lane (x + 1) y].getLsbD z.val) + 1) *
          bit (st[lane (x + 1 + 1) y].getLsbD z.val) := by
        rw [getElem_chi, mixed, BitVec.getLsbD_xor, BitVec.getLsbD_and, BitVec.getLsbD_not,
          bit_xor, bit_and, decide_eq_true hz, Bool.true_and, bit_not]
    _ = st.state x y z + (st.state (x + 1) y z + 1) * st.state (x + 1 + 1) y z := rfl
    _ = Keccak.chi st.state x y z := by
        rw [hnext]
        rfl

/-! ### Iota -/

/-- The constants of the rounds are those of the shift register. -/
theorem rndc_spec : ∀ (r : Fin 24) (z : ZMod (2 ^ 6)),
    bit (keccakfRndc[r].getLsbD z.val) = Keccak.roundConstant r.val z := by
  decide +kernel

theorem lane_eq_zero_iff : ∀ x y : ZMod 5, 0 = lane x y ↔ x = 0 ∧ y = 0 := by decide

theorem state_iota (st : Lanes) (r : Fin 24) :
    (st.iota r).state = Keccak.iota r.val st.state := by
  funext x y z
  rw [state, iota, getElem_xorAt, Keccak.iota]
  by_cases h : x = 0 ∧ y = 0
  · rw [if_pos ((lane_eq_zero_iff x y).mpr h), if_pos h, BitVec.getLsbD_xor, bit_xor, rndc_spec]
    rfl
  · rw [if_neg fun heq => h ((lane_eq_zero_iff x y).mp heq), if_neg h]
    rfl

/-! ### All rounds -/

theorem state_round (st : Lanes) (r : Fin 24) :
    (st.round r).state = Keccak.round st.state r.val := by
  rw [round, state_iota, state_chi, state_rhoPi, state_theta]
  rfl

/-- A state of Keccak has the bits of only one array of words. -/
theorem state_injective : Function.Injective state := by
  intro st st' h
  have hlanes : ∀ k : Fin 25, ∃ x y, lane x y = k := by decide
  refine Vector.ext fun k hk => BitVec.eq_of_getLsbD_eq fun z hz => ?_
  obtain ⟨x, y, hxy⟩ := hlanes ⟨k, hk⟩
  have hbit := congrFun (congrFun (congrFun h x) y) ((z : ℕ) : ZMod (2 ^ 6))
  have hval : ((z : ℕ) : ZMod (2 ^ 6)).val = z := ZMod.val_natCast_of_lt hz
  simp only [state, hval, hxy] at hbit
  exact bit_injective hbit

end Lanes

/-- **`sha3_keccakf` is Keccak-f[1600]**: the words it leaves are the state
after all rounds. -/
theorem state_sha3Keccakf (st : Lanes) : (sha3Keccakf st).state = Keccak.f st.state := by
  have hrun : ∀ (l : List (Fin 24)) (st : Lanes),
      (l.foldl Lanes.round st).state = (l.map Fin.val).foldl Keccak.round st.state := by
    intro l
    induction l with
    | nil => exact fun st => rfl
    | cons r l ih =>
      intro st
      rw [List.foldl_cons, ih, Lanes.state_round]
      rfl
  have hrounds : (List.finRange keccakfRounds).map Fin.val = List.range (Keccak.rounds 6) := by
    decide
  rw [sha3Keccakf, hrun, Keccak.f, ← hrounds]

/-- **The compression function is a permutation** of the states. -/
theorem sha3Keccakf_bijective : Function.Bijective sha3Keccakf := by
  have hfinite : Finite Lanes := Finite.of_injective Lanes.state Lanes.state_injective
  refine Finite.injective_iff_bijective.mp fun st st' h => ?_
  have hstates : Keccak.f st.state = Keccak.f st'.state := by
    rw [← state_sha3Keccakf, ← state_sha3Keccakf, h]
  exact Lanes.state_injective (Keccak.f_bijective.injective hstates)

end KeystoneSdk
