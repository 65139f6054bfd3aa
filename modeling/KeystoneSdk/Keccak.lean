/-
Keccak, and SHA-3 over it.

A state is an array of 5 × 5 lanes of `2 ^ ℓ` bits; the bits are elements of
the field of two elements.  `theta` adds to every bit the parities of two
columns, `rho` turns the lanes, `pi` moves them, `chi` is the one step that is
not linear, and `iota` adds the constant of the round.  SHA-3 is the sponge
over the permutation of 1600 bits.

* `spread_fixed` — only the zero plane is its own image under the parities
  `theta` adds: in characteristic two, `2 ^ k` applications add two planes only;
* **`f_bijective`** — all rounds together are a permutation of the states;
* `addFrom_addBit` — what adding a string to a state does to each bit.
-/
import Mathlib
import KeystoneSdk.Sponge

namespace Keccak

variable {ℓ : ℕ}

/-- The bits `A x y z` of a state: column, row and place in the lane. -/
abbrev State (ℓ : ℕ) : Type := ZMod 5 → ZMod 5 → ZMod (2 ^ ℓ) → ZMod 2

/-- The parities of the columns. -/
def parity (A : State ℓ) (x : ZMod 5) (z : ZMod (2 ^ ℓ)) : ZMod 2 :=
  A x 0 z + A x 1 z + A x 2 z + A x 3 z + A x 4 z

/-- What `theta` makes of the parities. -/
def spread (C : ZMod 5 → ZMod (2 ^ ℓ) → ZMod 2) (x : ZMod 5) (z : ZMod (2 ^ ℓ)) : ZMod 2 :=
  C (x - 1) z + C (x + 1) (z - 1)

def theta (A : State ℓ) : State ℓ := fun x y z => A x y z + spread (parity A) x z

/-- The lanes in the order in which `rho` visits them. -/
def orbit : ℕ → ZMod 5 × ZMod 5
  | 0 => (1, 0)
  | t + 1 => ((orbit t).2, 2 * (orbit t).1 + 3 * (orbit t).2)

/-- How far `rho` turns a lane. -/
def offset (x y : ZMod 5) : ℕ :=
  ((List.range 24).map fun t => if orbit t = (x, y) then (t + 1) * (t + 2) / 2 else 0).sum

def rho (A : State ℓ) : State ℓ := fun x y z => A x y (z - (offset x y : ℕ))

def pi (A : State ℓ) : State ℓ := fun x y z => A (x + 3 * y) x z

/-- `chi` on a row. -/
def chiRow (a : ZMod 5 → ZMod 2) (x : ZMod 5) : ZMod 2 := a x + (a (x + 1) + 1) * a (x + 2)

def chi (A : State ℓ) : State ℓ := fun x y z => chiRow (fun x => A x y z) x

/-- One step of the shift register behind the round constants. -/
def lfsr (r : BitVec 8) : BitVec 8 := (r <<< 1) ^^^ (if r.msb then 0x71#8 else 0#8)

def rc (t : ℕ) : Bool := (lfsr^[t % 255] 1#8).getLsbD 0

def roundConstant (ir : ℕ) (z : ZMod (2 ^ ℓ)) : ZMod 2 :=
  if ((List.range (ℓ + 1)).any fun j => z.val = 2 ^ j - 1 && rc (j + 7 * ir)) then 1 else 0

def iota (ir : ℕ) (A : State ℓ) : State ℓ := fun x y z =>
  if x = 0 ∧ y = 0 then A x y z + roundConstant ir z else A x y z

def round (A : State ℓ) (ir : ℕ) : State ℓ := iota ir (chi (pi (rho (theta A))))

/-- The rounds of the permutation of `25 * 2 ^ ℓ` bits. -/
def rounds (ℓ : ℕ) : ℕ := 12 + 2 * ℓ

def f (A : State ℓ) : State ℓ := (List.range (rounds ℓ)).foldl round A

/-- The place of a bit in the string of a state. -/
def position (x y : ZMod 5) (z : ZMod (2 ^ ℓ)) : ℕ := 2 ^ ℓ * (5 * y.val + x.val) + z.val

/-- A bit is added to the string of a state. -/
def addBit (i : ℕ) (a : ZMod 2) (A : State ℓ) : State ℓ := fun x y z =>
  if position x y z = i then A x y z + a else A x y z

/-- The string of a state. -/
def string (A : State ℓ) : List (ZMod 2) :=
  (List.range (25 * 2 ^ ℓ)).map fun i =>
    A (i / 2 ^ ℓ : ℕ) (i / 2 ^ ℓ / 5 : ℕ) (i : ℕ)

/-- SHA-3 with `d` bits of output: the sponge over Keccak-f[1600] whose
capacity is `2 * d`, for messages with the suffix `01`. -/
def sha3 (d : ℕ) (message : List (ZMod 2)) : List (ZMod 2) :=
  Sponge.squeeze f (1600 - 2 * d) string d
    (Sponge.hash (f : State 6 → State 6) addBit (1600 - 2 * d) 1 0 0 (message ++ [0, 1]))

/-! ### `theta` -/

theorem spread_add (C D : ZMod 5 → ZMod (2 ^ ℓ) → ZMod 2) :
    spread (C + D) = spread C + spread D := by
  funext x z
  simp only [spread, Pi.add_apply]
  ring

/-- `2 ^ k` applications add two planes: all others cancel. -/
theorem spread_iterate (C : ZMod 5 → ZMod (2 ^ ℓ) → ZMod 2) (k : ℕ) :
    spread^[2 ^ k] C =
      fun x z => C (x - 2 ^ k) z + C (x + 2 ^ k) (z - 2 ^ k) := by
  induction k generalizing C with
  | zero =>
    funext x z
    simp [spread]
  | succ k ih =>
    rw [pow_succ, mul_two, Function.iterate_add_apply, ih C, ih]
    funext x z
    have hcancel : C (x - 2 ^ k + 2 ^ k) (z - 2 ^ k) + C (x + 2 ^ k - 2 ^ k) (z - 2 ^ k) = 0 := by
      rw [sub_add_cancel, add_sub_cancel_right]
      exact CharTwo.add_self_eq_zero _
    have hx : x - 2 ^ k - 2 ^ k = x - 2 ^ (k + 1) := by ring
    have hx' : x + 2 ^ k + 2 ^ k = x + 2 ^ (k + 1) := by ring
    have hz : z - 2 ^ k - 2 ^ k = z - 2 ^ (k + 1) := by ring
    calc C (x - 2 ^ k - 2 ^ k) z + C (x - 2 ^ k + 2 ^ k) (z - 2 ^ k) +
          (C (x + 2 ^ k - 2 ^ k) (z - 2 ^ k) + C (x + 2 ^ k + 2 ^ k) (z - 2 ^ k - 2 ^ k))
        = C (x - 2 ^ k - 2 ^ k) z + C (x + 2 ^ k + 2 ^ k) (z - 2 ^ k - 2 ^ k) +
          (C (x - 2 ^ k + 2 ^ k) (z - 2 ^ k) + C (x + 2 ^ k - 2 ^ k) (z - 2 ^ k)) := by ring
      _ = C (x - 2 ^ (k + 1)) z + C (x + 2 ^ (k + 1)) (z - 2 ^ (k + 1)) := by
        rw [hcancel, add_zero, hx, hx', hz]

/-- Five bits in a circle, each the sum of its two neighbours at a distance. -/
theorem circle_zero : ∀ a : ZMod 5 → ZMod 2, ∀ d : ZMod 5, d ≠ 0 →
    (∀ x, a x = a (x - d) + a (x + d)) → ∀ x, a x = 0 := by
  decide +kernel

theorem two_pow_ne_zero (k : ℕ) : (2 : ZMod 5) ^ k ≠ 0 := by
  have hdouble : ∀ a : ZMod 5, a ≠ 0 → a * 2 ≠ 0 := by decide
  induction k with
  | zero => decide
  | succ k ih => exact hdouble _ ih

/-- Only the zero plane is its own image. -/
theorem spread_fixed {C : ZMod 5 → ZMod (2 ^ ℓ) → ZMod 2} (h : spread C = C) (x : ZMod 5)
    (z : ZMod (2 ^ ℓ)) : C x z = 0 := by
  -- after `2 ^ ℓ` applications the lanes are back in their places
  have hiterate : spread^[2 ^ ℓ] C = C := Function.iterate_fixed h _
  rw [spread_iterate] at hiterate
  have hturn : (2 : ZMod (2 ^ ℓ)) ^ ℓ = 0 := by
    have hcast := ZMod.natCast_self (2 ^ ℓ)
    push_cast at hcast
    exact hcast
  refine circle_zero (fun x => C x z) (2 ^ ℓ) (two_pow_ne_zero ℓ) (fun x => ?_) x
  have hx := congrFun (congrFun hiterate x) z
  rw [hturn, sub_zero] at hx
  exact hx.symm

theorem parity_theta (A : State ℓ) : parity (theta A) = parity A + spread (parity A) := by
  funext x z
  have htwo : spread (parity A) x z + spread (parity A) x z = 0 := CharTwo.add_self_eq_zero _
  have hsum : parity (theta A) x z = parity A x z + spread (parity A) x z +
      2 * (spread (parity A) x z + spread (parity A) x z) := by
    simp only [parity, theta]
    ring
  rw [hsum, htwo, mul_zero, add_zero]
  rfl

theorem theta_injective : Function.Injective (theta : State ℓ → State ℓ) := by
  intro A B h
  have hparities : parity A + spread (parity A) = parity B + spread (parity B) := by
    rw [← parity_theta, ← parity_theta, h]
  -- the difference of the parities is its own image
  have hfixed : spread (parity A + parity B) = parity A + parity B := by
    rw [spread_add]
    funext x z
    have hx := congrFun (congrFun hparities x) z
    simp only [Pi.add_apply] at hx ⊢
    have htwo : ∀ a b c d : ZMod 2, a + b = c + d → b + d = a + c := by decide
    exact htwo _ _ _ _ hx
  have hparity : parity A = parity B := by
    funext x z
    exact CharTwo.add_eq_zero.mp (spread_fixed hfixed x z)
  funext x y z
  have hx : A x y z + spread (parity A) x z = B x y z + spread (parity B) x z :=
    congrFun (congrFun (congrFun h x) y) z
  rw [hparity] at hx
  exact add_right_cancel hx

/-! ### The other steps -/

theorem rho_injective : Function.Injective (rho : State ℓ → State ℓ) := by
  intro A B h
  funext x y z
  have hx := congrFun (congrFun (congrFun h x) y) (z + (offset x y : ℕ))
  simp only [rho, add_sub_cancel_right] at hx
  exact hx

theorem pi_injective : Function.Injective (pi : State ℓ → State ℓ) := by
  intro A B h
  funext x y z
  have hsource : y + 3 * (2 * (x - y)) = x := by
    have hsix : ∀ x y : ZMod 5, y + 3 * (2 * (x - y)) = x := by decide
    exact hsix x y
  have hx := congrFun (congrFun (congrFun h y) (2 * (x - y))) z
  simp only [pi, hsource] at hx
  exact hx

theorem chiRow_injective : Function.Injective chiRow := by
  have hrows : ∀ a b : ZMod 5 → ZMod 2, chiRow a = chiRow b → a = b := by decide +kernel
  intro a b h
  exact hrows a b h

theorem chi_injective : Function.Injective (chi : State ℓ → State ℓ) := by
  intro A B h
  funext x y z
  have hrow : chiRow (fun x => A x y z) = chiRow (fun x => B x y z) := by
    funext x
    exact congrFun (congrFun (congrFun h x) y) z
  exact congrFun (chiRow_injective hrow) x

theorem iota_injective (ir : ℕ) : Function.Injective (iota ir : State ℓ → State ℓ) := by
  intro A B h
  funext x y z
  have hx := congrFun (congrFun (congrFun h x) y) z
  simp only [iota] at hx
  by_cases hlane : x = 0 ∧ y = 0
  · rw [if_pos hlane, if_pos hlane] at hx
    exact add_right_cancel hx
  · rwa [if_neg hlane, if_neg hlane] at hx

/-! ### The permutation -/

theorem round_injective (ir : ℕ) : Function.Injective fun A : State ℓ => round A ir := by
  intro A B h
  exact theta_injective (rho_injective (pi_injective (chi_injective (iota_injective ir h))))

theorem foldl_injective {α β : Type*} {step : α → β → α}
    (h : ∀ b, Function.Injective fun a => step a b) (l : List β) :
    Function.Injective fun a => l.foldl step a := by
  induction l with
  | nil => exact fun _ _ heq => heq
  | cons b l ih =>
    intro a a' heq
    exact h b (ih heq)

/-- **The rounds are a permutation** of the states, for lanes of every length. -/
theorem f_bijective : Function.Bijective (f : State ℓ → State ℓ) :=
  Finite.injective_iff_bijective.mp (foldl_injective round_injective _)

/-! ### Strings -/

/-- What adding a string to a state does to a bit. -/
theorem addFrom_addBit (l : List (ZMod 2)) (k : ℕ) (A : State ℓ) (x y : ZMod 5)
    (z : ZMod (2 ^ ℓ)) :
    Sponge.addFrom addBit k l A x y z =
      A x y z + if k ≤ position x y z then l.getD (position x y z - k) 0 else 0 := by
  induction l generalizing k A with
  | nil => simp [Sponge.addFrom]
  | cons a l ih =>
    rw [Sponge.addFrom, ih, addBit]
    rcases Nat.lt_trichotomy k (position x y z) with h | h | h
    · obtain ⟨i, hi⟩ := Nat.exists_eq_add_of_lt h
      have hsub : position x y z - k = i + 1 := by omega
      have hsub' : position x y z - (k + 1) = i := by omega
      rw [if_neg h.ne', if_pos (Nat.succ_le_of_lt h), if_pos h.le, hsub, hsub', List.getD_cons_succ]
    · subst h
      rw [if_pos rfl, if_neg (Nat.not_succ_le_self _), if_pos (le_refl _), Nat.sub_self,
        List.getD_cons_zero, add_zero]
    · rw [if_neg h.ne, if_neg (by omega), if_neg (by omega)]

theorem addBit_zero (k : ℕ) (A : State ℓ) : addBit k 0 A = A := by
  funext x y z
  simp [addBit]

@[simp] theorem string_length (A : State ℓ) : (string A).length = 25 * 2 ^ ℓ := by
  simp [string]

end Keccak
