/-
Copies between the slots of one array, made one after the other.

The requests `κ` each copy what a source slot holds to a destination slot
(`move`).  The requests of a list are meant to happen at once: every destination
is to hold what its source held before all of them (`Parallel`).

* `run` — the requests one by one;
* `run_of_undisturbed` — a list in which no request changes a later source;
* `parallel_iff` — for distinct destinations, every order of the requests is as
  good as all at once iff no request changes the source of another.
-/
import Mathlib

namespace SequentialCopies

/-- Copy slot `source` to slot `dest`. -/
structure Move (ι : Type) where
  dest : ι
  source : ι

variable {ι β κ : Type} [DecidableEq ι] (move : κ → Move ι)

/-- Serve one request. -/
def step (t : ι → β) (r : κ) : ι → β := Function.update t (move r).dest (t (move r).source)

/-- Serve the requests of a list in order. -/
def run (t : ι → β) (rs : List κ) : ι → β := rs.foldl (step move) t

@[simp] theorem run_cons (t : ι → β) (r : κ) (rs : List κ) :
    run move t (r :: rs) = run move (step move t r) rs := rfl

@[simp] theorem step_dest (t : ι → β) (r : κ) :
    step move t r (move r).dest = t (move r).source := Function.update_self ..

theorem step_of_ne (t : ι → β) {r : κ} {i : ι} (h : i ≠ (move r).dest) : step move t r i = t i :=
  Function.update_of_ne h ..

/-- Slots that are no destination keep what they hold. -/
theorem run_of_notMem (t : ι → β) {rs : List κ} {i : ι} (h : ∀ r ∈ rs, i ≠ (move r).dest) :
    run move t rs i = t i := by
  induction rs generalizing t with
  | nil => rfl
  | cons r rs ih =>
    rw [run_cons, ih _ fun r' hr' => h r' (List.mem_cons_of_mem _ hr'),
      step_of_ne move t (h r (List.mem_cons_self ..))]

/-- Every destination holds what its source held before. -/
def Parallel (t : ι → β) (rs : List κ) (t' : ι → β) : Prop :=
  ∀ r ∈ rs, t' (move r).dest = t (move r).source

/-- The destinations are distinct. -/
def Distinct (rs : List κ) : Prop := (rs.map fun r => (move r).dest).Nodup

/-- Serving `r` changes nothing that `r'` reads. -/
def Undisturbed (t : ι → β) (r r' : κ) : Prop :=
  (move r').source = (move r).dest → t (move r).source = t (move r).dest

omit [DecidableEq ι] in
variable {move} in
theorem Distinct.perm {rs rs' : List κ} (hd : Distinct move rs) (h : rs'.Perm rs) :
    Distinct move rs' := (h.map _).nodup_iff.mpr hd

omit [DecidableEq ι] in
variable {move} in
/-- The destination of the first request is none of the others'. -/
theorem Distinct.first {r : κ} {rs : List κ} (hd : Distinct move (r :: rs)) :
    (∀ r' ∈ rs, (move r).dest ≠ (move r').dest) ∧ Distinct move rs := by
  rw [Distinct, List.map_cons, List.nodup_cons] at hd
  exact ⟨fun r' hr' he => hd.1 (List.mem_map.mpr ⟨r', hr', he.symm⟩), hd.2⟩

/-- A list in which no request changes the source of a later one. -/
theorem run_of_undisturbed (t : ι → β) {rs : List κ} (hd : Distinct move rs)
    (h : rs.Pairwise (Undisturbed move t)) : Parallel move t rs (run move t rs) := by
  -- after the first request, the others still find their sources as they were
  suffices hsame : ∀ t', (∀ r ∈ rs, t' (move r).source = t (move r).source) →
      Parallel move t rs (run move t' rs) from hsame t fun _ _ => rfl
  induction rs with
  | nil => exact fun _ _ _ hr => absurd hr List.not_mem_nil
  | cons r rs ih =>
    intro t' ht'
    obtain ⟨hout, hdrest⟩ := hd.first
    obtain ⟨hfirst, hrest⟩ := List.pairwise_cons.mp h
    have hsource : ∀ r' ∈ rs, step move t' r (move r').source = t (move r').source := by
      intro r' hr'
      by_cases he : (move r').source = (move r).dest
      · rw [he, step_dest, ht' r (List.mem_cons_self ..), hfirst r' hr' he]
      · rw [step_of_ne _ _ he, ht' r' (List.mem_cons_of_mem _ hr')]
    intro r' hr'
    rw [run_cons]
    rcases List.mem_cons.mp hr' with rfl | hr'
    · rw [run_of_notMem _ _ hout, step_dest, ht' r' (List.mem_cons_self ..)]
    · exact ih hdrest hrest _ hsource r' hr'

/-- An order that is as good as all at once: what comes first changes nothing that comes
second. -/
theorem undisturbed_of_parallel (t : ι → β) {r r' : κ} {rs : List κ}
    (hd : Distinct move (r :: r' :: rs))
    (h : Parallel move t (r :: r' :: rs) (run move t (r :: r' :: rs))) :
    Undisturbed move t r r' := by
  intro he
  have hdata := h r' (List.mem_cons_of_mem _ (List.mem_cons_self ..))
  rw [run_cons, run_cons, run_of_notMem _ _ hd.first.2.first.1, step_dest, he, step_dest] at hdata
  exact hdata

/-- **Every order is as good as all at once** iff no request changes what another reads. -/
theorem parallel_iff (t : ι → β) {rs : List κ} (hd : Distinct move rs) :
    (∀ order, order.Perm rs → Parallel move t rs (run move t order)) ↔
      ∀ r ∈ rs, ∀ r' ∈ rs, r ≠ r' → Undisturbed move t r r' := by
  constructor
  · classical
    intro h r hr r' hr' hne
    -- the order that starts with `r` and `r'`
    have hmem : r' ∈ rs.erase r := (List.mem_erase_of_ne hne.symm).mpr hr'
    have horder : (r :: r' :: (rs.erase r).erase r').Perm rs :=
      ((List.perm_cons_erase hmem).symm.cons r).trans (List.perm_cons_erase hr).symm
    have hparallel : Parallel move t (r :: r' :: (rs.erase r).erase r')
        (run move t (r :: r' :: (rs.erase r).erase r')) :=
      fun r'' hr'' => h _ horder r'' (horder.subset hr'')
    exact undisturbed_of_parallel move t (hd.perm horder) hparallel
  · intro h order ho
    have hnodup : order.Nodup := List.Nodup.of_map _ (hd.perm ho)
    have hpairs : order.Pairwise (Undisturbed move t) :=
      hnodup.pairwise_of_forall_ne fun r hr r' hr' hne =>
        h r (ho.subset hr) r' (ho.subset hr') hne
    exact fun r hr => run_of_undisturbed move t (hd.perm ho) hpairs r (ho.symm.subset hr)

end SequentialCopies
