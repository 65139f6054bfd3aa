/-
Computations over a state that may stop early and keep the state they stopped in.

`StopM ε σ α` reads and changes a state of type `σ` and ends either with a value
of type `α` or with a reason of type `ε` for not coming back; in both cases the
state reached is part of the outcome (`exec`).  On top of it:

* `exec_bind`, `exec_pure`, … — the equations that run a computation;
* `Grows` — a preorder on states that no computation leaves (logs only grow);
* `Simulates`, `forM_simulates` — a list of steps on one state simulates a list
  on another, as long as the second state stays good.
-/
import Mathlib

abbrev StopM (ε σ α : Type) := ExceptT ε (StateM σ) α

namespace StopM

variable {ε σ τ α β ι : Type}

/-- Run a computation: how it ended, and the state it reached. -/
def exec (m : StopM ε σ α) (s : σ) : Except ε α × σ := m.run s

@[simp] theorem exec_pure (a : α) (s : σ) : exec (pure a : StopM ε σ α) s = (.ok a, s) := rfl

@[simp] theorem exec_throw (e : ε) (s : σ) :
    exec (throw e : StopM ε σ α) s = (.error e, s) := rfl

@[simp] theorem exec_get (s : σ) : exec (get : StopM ε σ σ) s = (.ok s, s) := rfl

@[simp] theorem exec_set (s s' : σ) : exec (set s' : StopM ε σ PUnit) s = (.ok ⟨⟩, s') := rfl

@[simp] theorem exec_modify (f : σ → σ) (s : σ) :
    exec (modify f : StopM ε σ PUnit) s = (.ok ⟨⟩, f s) := rfl

theorem exec_bind (m : StopM ε σ α) (f : α → StopM ε σ β) (s : σ) :
    exec (m >>= f) s =
      match exec m s with
      | (.ok a, s') => exec (f a) s'
      | (.error e, s') => (.error e, s') := by
  show (ExceptT.bindCont f (m.run s).1).run (m.run s).2 = _
  unfold exec
  rcases hm : (m.run s : Except ε α × σ) with ⟨r, s'⟩
  cases r <;> rfl

theorem exec_bind_ok {m : StopM ε σ α} {f : α → StopM ε σ β} {s s' : σ} {a : α}
    (h : exec m s = (.ok a, s')) : exec (m >>= f) s = exec (f a) s' := by
  rw [exec_bind, h]

theorem exec_bind_error {m : StopM ε σ α} {f : α → StopM ε σ β} {s s' : σ} {e : ε}
    (h : exec m s = (.error e, s')) : exec (m >>= f) s = (.error e, s') := by
  rw [exec_bind, h]

/-- Two computations with the same runs are the same computation. -/
theorem ext_exec {m n : StopM ε σ α} (h : ∀ s, exec m s = exec n s) : m = n :=
  funext h

/-! ### Relations every run respects -/

/-- Every run of `m` leads from a state to one that `R` relates it to. -/
def Grows (R : σ → σ → Prop) (m : StopM ε σ α) : Prop := ∀ s, R s (exec m s).2

section Grows

variable {R : σ → σ → Prop}

theorem grows_pure (hr : ∀ s, R s s) (a : α) : Grows R (pure a : StopM ε σ α) := hr

theorem grows_throw (hr : ∀ s, R s s) (e : ε) : Grows R (throw e : StopM ε σ α) := hr

theorem grows_get (hr : ∀ s, R s s) : Grows R (get : StopM ε σ σ) := hr

theorem grows_modify {f : σ → σ} (h : ∀ s, R s (f s)) :
    Grows R (modify f : StopM ε σ PUnit) := h

theorem Grows.bind (ht : ∀ a b c, R a b → R b c → R a c) {m : StopM ε σ α}
    {f : α → StopM ε σ β} (hm : Grows R m) (hf : ∀ a, Grows R (f a)) : Grows R (m >>= f) := by
  intro s
  have hs := hm s
  rw [exec_bind]
  rcases hx : exec m s with ⟨r, s'⟩
  rw [hx] at hs
  cases r with
  | error e => exact hs
  | ok a => exact ht _ _ _ hs (hf a s')

/-- What comes after a computation only adds to what it reached. -/
theorem Grows.after (hr : ∀ s, R s s) (m : StopM ε σ α) {f : α → StopM ε σ β}
    (hf : ∀ a, Grows R (f a)) (s : σ) : R (exec m s).2 (exec (m >>= f) s).2 := by
  rw [exec_bind]
  rcases exec m s with ⟨r, s'⟩
  cases r with
  | error e => exact hr s'
  | ok a => exact hf a s'

theorem Grows.forM (hr : ∀ s, R s s) (ht : ∀ a b c, R a b → R b c → R a c)
    {f : ι → StopM ε σ PUnit} (hf : ∀ i, Grows R (f i)) (l : List ι) : Grows R (forM l f) := by
  induction l with
  | nil => exact grows_pure hr _
  | cons i l ih =>
    rw [List.forM_cons]
    exact Grows.bind ht (hf i) fun _ => ih

end Grows

/-- What every step of a list preserves, the run of the list preserves. -/
theorem forM_preserves {P : σ → Prop} {f : ι → StopM ε σ PUnit} (l : List ι)
    (h : ∀ i ∈ l, ∀ s, P s → P (exec (f i) s).2) {s : σ} (hs : P s) :
    P (exec (forM l f) s).2 := by
  induction l generalizing s with
  | nil => exact hs
  | cons i l ih =>
    have hi := h i (List.mem_cons_self ..) s hs
    rw [List.forM_cons, exec_bind]
    rcases hx : exec (f i) s with ⟨r, s'⟩
    rw [hx] at hi
    cases r with
    | error e => exact hi
    | ok a => exact ih (fun j hj => h j (List.mem_cons_of_mem _ hj)) hi

/-- A list of steps that all return, returns. -/
theorem forM_returns {f : ι → StopM ε σ PUnit} (l : List ι)
    (h : ∀ i ∈ l, ∀ s, (exec (f i) s).1 = .ok ⟨⟩) (s : σ) : (exec (forM l f) s).1 = .ok ⟨⟩ := by
  induction l generalizing s with
  | nil => rfl
  | cons i l ih =>
    have hi := h i (List.mem_cons_self ..) s
    rw [List.forM_cons, exec_bind]
    rcases hx : exec (f i) s with ⟨r, s'⟩
    rw [hx] at hi
    cases hi
    exact ih (fun j hj => h j (List.mem_cons_of_mem _ hj)) s'

/-- A list that starts with a step: the step, then the rest. -/
theorem exec_forM_cons_ok {f : ι → StopM ε σ PUnit} {i : ι} {l : List ι} {s s' : σ}
    (h : exec (forM (i :: l) f) s = (.ok ⟨⟩, s')) :
    ∃ s₁, exec (f i) s = (.ok ⟨⟩, s₁) ∧ exec (forM l f) s₁ = (.ok ⟨⟩, s') := by
  rw [List.forM_cons, exec_bind] at h
  rcases hx : exec (f i) s with ⟨r, s₁⟩
  rw [hx] at h
  cases r with
  | error e => cases h
  | ok a => exact ⟨s₁, rfl, h⟩

theorem forM_append {f : ι → StopM ε σ PUnit} (l l' : List ι) :
    (forM (l ++ l') f : StopM ε σ PUnit) = forM l f >>= fun _ => forM l' f := by
  induction l with
  | nil => rw [List.nil_append, List.forM_nil, pure_bind]
  | cons i l ih => rw [List.cons_append, List.forM_cons, List.forM_cons, ih, bind_assoc]

/-! ### Simulation of a list of steps -/

/-- Steps `f` on states `σ` simulate steps `g` on states `τ`, as long as the
latter are good (`G`); a run of `g` that ends in a state that is not good makes
the run of `f` end in a bad one (`B`).  A good state is only reached from good
states, and a bad state is never left. -/
structure Simulates (R : σ → τ → Prop) (G : τ → Prop) (B : σ → Prop) (f : StopM ε σ α)
    (g : StopM ε τ α) : Prop where
  good : ∀ s t, R s t → G (exec g t).2 →
    (exec f s).1 = (exec g t).1 ∧ R (exec f s).2 (exec g t).2
  bad : ∀ s t, R s t → ¬ G (exec g t).2 → B (exec f s).2
  back : ∀ t, G (exec g t).2 → G t
  stays : ∀ s, B s → B (exec f s).2

section Simulates

variable {R : σ → τ → Prop} {G : τ → Prop} {B : σ → Prop}

theorem simulates_pure (hGB : ∀ s t, R s t → ¬ G t → B s) (a : α) :
    Simulates R G B (pure a : StopM ε σ α) (pure a) where
  good := fun _ _ h _ => ⟨rfl, h⟩
  bad := fun s t h hg => hGB s t h hg
  back := fun _ h => h
  stays := fun _ h => h

theorem Simulates.bind {f : StopM ε σ α} {g : StopM ε τ α} {f' : α → StopM ε σ β}
    {g' : α → StopM ε τ β} (h : Simulates R G B f g) (h' : ∀ a, Simulates R G B (f' a) (g' a)) :
    Simulates R G B (f >>= f') (g >>= g') := by
  -- a run that stays good was good in the middle
  have hback : ∀ t, G (exec (g >>= g') t).2 → G (exec g t).2 := by
    intro t hg
    rw [exec_bind] at hg
    rcases hx : exec g t with ⟨r, t'⟩
    rw [hx] at hg
    cases r with
    | error e => exact hg
    | ok a => exact (h' a).back t' hg
  refine ⟨?_, ?_, fun t hg => h.back t (hback t hg), ?_⟩
  · intro s t hR hg
    obtain ⟨hr, hR'⟩ := h.good s t hR (hback t hg)
    rw [exec_bind] at hg
    rw [exec_bind, exec_bind]
    rcases hx : exec g t with ⟨r, t'⟩
    rcases hy : exec f s with ⟨r', s'⟩
    rw [hx, hy] at hr hR'
    rw [hx] at hg
    simp only at hr hR'
    subst hr
    cases r' with
    | error e => exact ⟨rfl, hR'⟩
    | ok a => exact (h' a).good s' t' hR' hg
  · -- the first half goes bad, or the second half does
    intro s t hR hg
    by_cases hmid : G (exec g t).2
    · obtain ⟨hr, hR'⟩ := h.good s t hR hmid
      rw [exec_bind] at hg
      rw [exec_bind]
      rcases hx : exec g t with ⟨r, t'⟩
      rcases hy : exec f s with ⟨r', s'⟩
      rw [hx, hy] at hr hR'
      rw [hx] at hg hmid
      simp only at hr hR'
      subst hr
      cases r' with
      | error e => exact absurd hmid hg
      | ok a => exact (h' a).bad s' t' hR' hg
    · have hb := h.bad s t hR hmid
      rw [exec_bind]
      rcases hy : exec f s with ⟨r', s'⟩
      rw [hy] at hb
      cases r' with
      | error e => exact hb
      | ok a => exact (h' a).stays s' hb
  · intro s hb
    have hb' := h.stays s hb
    rw [exec_bind]
    rcases hy : exec f s with ⟨r', s'⟩
    rw [hy] at hb'
    cases r' with
    | error e => exact hb'
    | ok a => exact (h' a).stays s' hb'

/-- A list of steps simulates a list of steps. -/
theorem forM_simulates (hGB : ∀ s t, R s t → ¬ G t → B s) {f : ι → StopM ε σ PUnit}
    {g : ι → StopM ε τ PUnit} (l : List ι) (h : ∀ i ∈ l, Simulates R G B (f i) (g i)) :
    Simulates R G B (forM l f) (forM l g) := by
  induction l with
  | nil => exact simulates_pure hGB _
  | cons i l ih =>
    rw [List.forM_cons, List.forM_cons]
    exact (h i (List.mem_cons_self ..)).bind
      fun _ => ih fun j hj => h j (List.mem_cons_of_mem _ hj)

end Simulates

end StopM
