/-
The sponge construction, over any state and any symbols.

The message, padded to whole blocks of `r` symbols, is absorbed block by block:
each block is added to the first `r` places of the state and the state is
permuted.  `feed` does the same one symbol at a time and needs neither the
blocks nor the length of the message.

* **`feeds_blocks`** — fed one symbol at a time, whole blocks are absorbed;
* `padded_length` — a padded message is whole blocks.
-/
import Mathlib.Data.List.Basic
import Mathlib.Logic.Function.Iterate

namespace Sponge

variable {σ α : Type*} (f : σ → σ) (add : ℕ → α → σ → σ) (r : ℕ)

/-- A list of symbols is added to the places from `k` on. -/
def addFrom : ℕ → List α → σ → σ
  | _, [], s => s
  | k, a :: l, s => addFrom (k + 1) l (add k a s)

/-- The blocks of `r` symbols of a list. -/
def blocks (l : List α) : List (List α) :=
  (List.range (l.length / r)).map fun i => (l.drop (i * r)).take r

/-- All blocks are absorbed. -/
def absorb (s : σ) (bs : List (List α)) : σ := bs.foldl (fun s block => f (addFrom add 0 block s)) s

/-- `pad10*1`, with `one` and `zero` for the two bits: what is put behind `m`
symbols. -/
def pad (one zero : α) (m : ℕ) : List α :=
  one :: (List.replicate ((r - (m + 2) % r) % r) zero ++ [one])

/-- The state after a padded message. -/
def hash (one zero : α) (s : σ) (l : List α) : σ :=
  absorb f add s (blocks r (l ++ pad r one zero l.length))

/-- The first `d` symbols squeezed out, `r` of each state; `out` reads the
symbols of a state. -/
def squeeze (out : σ → List α) (d : ℕ) (s : σ) : List α :=
  ((List.range (d / r + 1)).flatMap fun i => (out (f^[i] s)).take r).take d

/-- One symbol; the second component is the place of the next one. -/
def feed (s : σ × ℕ) (a : α) : σ × ℕ :=
  if r ≤ s.2 + 1 then (f (add s.2 a s.1), 0) else (add s.2 a s.1, s.2 + 1)

/-- One symbol after the other. -/
def feeds (s : σ × ℕ) (l : List α) : σ × ℕ := l.foldl (feed f add r) s

/-! ### Symbols and blocks -/

section Feeding

variable {f add r}

theorem feeds_append (s : σ × ℕ) (l l' : List α) :
    feeds f add r s (l ++ l') = feeds f add r (feeds f add r s l) l' :=
  List.foldl_append

theorem addFrom_append (l l' : List α) (k : ℕ) (s : σ) :
    addFrom add k (l ++ l') s = addFrom add (k + l.length) l' (addFrom add k l s) := by
  induction l generalizing k s with
  | nil => rfl
  | cons a l ih =>
    simp only [List.cons_append, addFrom, List.length_cons]
    rw [ih, Nat.add_assoc, Nat.add_comm 1]

/-- Symbols that do not fill the block. -/
theorem feeds_within (l : List α) (k : ℕ) (s : σ) (h : k + l.length < r) :
    feeds f add r (s, k) l = (addFrom add k l s, k + l.length) := by
  induction l generalizing k s with
  | nil => rfl
  | cons a l ih =>
    rw [List.length_cons] at h
    have hfeed : feed f add r (s, k) a = (add k a s, k + 1) := if_neg (by simp only; omega)
    rw [feeds, List.foldl_cons, hfeed, ← feeds, ih _ _ (by omega), addFrom, List.length_cons]
    congr 1
    omega

/-- Symbols that fill the block. -/
theorem feeds_fill (l : List α) (k : ℕ) (s : σ) (hk : k < r) (h : k + l.length = r) :
    feeds f add r (s, k) l = (f (addFrom add k l s), 0) := by
  have hne : l ≠ [] := by
    rintro rfl
    simp only [List.length_nil] at h
    omega
  -- all but the last symbol stay within the block
  obtain ⟨l, a, rfl⟩ := (List.eq_nil_or_concat l).resolve_left hne
  rw [List.length_concat] at h
  rw [List.concat_eq_append, feeds_append, feeds_within l k s (by omega), addFrom_append]
  exact if_pos (by simp only; omega)

/-- **Whole blocks, fed one symbol at a time, are absorbed.** -/
theorem feeds_blocks (hr : 0 < r) (bs : List (List α)) (h : ∀ block ∈ bs, block.length = r)
    (s : σ) : feeds f add r (s, 0) bs.flatten = (absorb f add s bs, 0) := by
  induction bs generalizing s with
  | nil => rfl
  | cons block bs ih =>
    have hblock : block.length = r := h block List.mem_cons_self
    rw [List.flatten_cons, feeds_append, feeds_fill block 0 s hr (by omega),
      ih fun b hb => h b (List.mem_cons_of_mem _ hb)]
    rfl

theorem blocks_length {l : List α} {block : List α} (h : block ∈ blocks r l) :
    block.length = r := by
  obtain ⟨i, hi, rfl⟩ := List.mem_map.mp h
  have hlt : (i + 1) * r ≤ l.length / r * r :=
    Nat.mul_le_mul_right r (List.mem_range.mp hi)
  have hle : l.length / r * r ≤ l.length := Nat.div_mul_le_self _ _
  rw [List.length_take, List.length_drop]
  rw [Nat.succ_mul] at hlt
  omega

/-- The blocks of a list that is whole blocks are all of it. -/
theorem blocks_flatten {l : List α} (h : r ∣ l.length) : (blocks r l).flatten = l := by
  -- the first `n` blocks are the first `n * r` symbols
  have hprefix : ∀ n ≤ l.length / r,
      ((List.range n).map fun i => (l.drop (i * r)).take r).flatten = l.take (n * r) := by
    intro n hn
    induction n with
    | zero => simp
    | succ n ih =>
      rw [List.range_succ, List.map_append, List.flatten_append, ih (by omega)]
      simp only [List.map_cons, List.map_nil, List.flatten_cons, List.flatten_nil,
        List.append_nil]
      rw [Nat.succ_mul, List.take_add]
  rw [blocks, hprefix _ (Nat.le_refl _), Nat.div_mul_cancel h, List.take_length]

/-- Fed one symbol at a time, a list that is whole blocks is absorbed. -/
theorem feeds_eq_absorb (hr : 0 < r) {l : List α} (h : r ∣ l.length) (s : σ) :
    feeds f add r (s, 0) l = (absorb f add s (blocks r l), 0) := by
  have hfeeds : feeds f add r (s, 0) (blocks r l).flatten = (absorb f add s (blocks r l), 0) :=
    feeds_blocks hr _ (fun _ => blocks_length) s
  rwa [blocks_flatten h] at hfeeds

/-- Symbols that add nothing only move the place. -/
theorem addFrom_zero {zero : α} (hzero : ∀ k s, add k zero s = s) (n k : ℕ) (s : σ) :
    addFrom add k (List.replicate n zero) s = s := by
  induction n generalizing k with
  | zero => rfl
  | succ n ih => rw [List.replicate_succ, addFrom, hzero, ih]

theorem feeds_snd (hr : 0 < r) (l : List α) (s : σ) (k : ℕ) (hk : k < r) :
    (feeds f add r (s, k) l).2 = (k + l.length) % r := by
  induction l generalizing s k with
  | nil => exact (Nat.mod_eq_of_lt hk).symm
  | cons a l ih =>
    rw [feeds, List.foldl_cons, ← feeds]
    by_cases hfull : r ≤ k + 1
    · have hfeed : feed f add r (s, k) a = (f (add k a s), 0) := if_pos hfull
      have hone : k + (a :: l).length = l.length + r := by
        rw [List.length_cons]
        omega
      rw [hfeed, ih _ _ hr, hone, Nat.add_mod_right, Nat.zero_add]
    · have hfeed : feed f add r (s, k) a = (add k a s, k + 1) := if_neg hfull
      rw [hfeed, ih _ _ (by omega), List.length_cons]
      congr 1
      omega

/-- As long as one state has enough symbols it is the only one read. -/
theorem squeeze_le {out : σ → List α} {d : ℕ} {s : σ} (hd : d ≤ r) (hout : r ≤ (out s).length) :
    squeeze f r out d s = (out s).take d := by
  rw [squeeze, List.range_succ_eq_map, List.flatMap_cons, List.take_append_of_le_length]
  · rw [Function.iterate_zero_apply, List.take_take, Nat.min_eq_left hd]
  · rw [Function.iterate_zero_apply, List.length_take]
    omega

end Feeding

/-! ### The padding -/

section Padding

variable {r} {one zero : α}

theorem padded_length (hr : 0 < r) (l : List α) :
    r ∣ (l ++ pad r one zero l.length).length := by
  have hlength : (l ++ pad r one zero l.length).length =
      (l.length + 2) + (r - (l.length + 2) % r) % r := by
    simp [pad]
    omega
  rw [hlength]
  have hlt := Nat.mod_lt (l.length + 2) hr
  have hdiv := Nat.div_add_mod (l.length + 2) r
  by_cases hwhole : (l.length + 2) % r = 0
  · rw [hwhole, Nat.sub_zero, Nat.mod_self, Nat.add_zero]
    exact Nat.dvd_of_mod_eq_zero hwhole
  · rw [Nat.mod_eq_of_lt (by omega)]
    refine ⟨(l.length + 2) / r + 1, ?_⟩
    rw [Nat.mul_succ]
    omega

end Padding

end Sponge
