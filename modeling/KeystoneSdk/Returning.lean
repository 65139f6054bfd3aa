/-
Total correctness of computations that may stop.

`Returns m s Q`: the run of `m` from `s` comes back, with a value and a state
that satisfy `Q`.

* `returns_pure`, `returns_bind`, … — the equations that compute it along the
  text of a program;
* `Returns.mono`, `returns_of_exec` — the use of what is known of a part.
-/
import KeystoneSdk.Stopping

namespace StopM

variable {ε σ α β : Type}

/-- The run of `m` from `s` returns a value and a state with `Q`. -/
def Returns (m : StopM ε σ α) (s : σ) (Q : α → σ → Prop) : Prop :=
  ∃ a s', exec m s = (.ok a, s') ∧ Q a s'

theorem returns_of_exec {m : StopM ε σ α} {s s' : σ} {a : α} {Q : α → σ → Prop}
    (h : exec m s = (.ok a, s')) : Returns m s Q ↔ Q a s' := by
  constructor
  · rintro ⟨b, t, hb, hq⟩
    rw [h] at hb
    cases hb
    exact hq
  · intro hq
    exact ⟨a, s', h, hq⟩

theorem Returns.mono {m : StopM ε σ α} {s : σ} {Q Q' : α → σ → Prop} (h : Returns m s Q)
    (hq : ∀ a s', Q a s' → Q' a s') : Returns m s Q' := by
  obtain ⟨a, s', hm, hs⟩ := h
  exact ⟨a, s', hm, hq a s' hs⟩

theorem returns_pure {a : α} {s : σ} {Q : α → σ → Prop} :
    Returns (pure a : StopM ε σ α) s Q ↔ Q a s := returns_of_exec (exec_pure a s)

theorem returns_modify {f : σ → σ} {s : σ} {Q : PUnit → σ → Prop} :
    Returns (modify f : StopM ε σ PUnit) s Q ↔ Q ⟨⟩ (f s) := returns_of_exec (exec_modify f s)

theorem returns_bind {m : StopM ε σ α} {f : α → StopM ε σ β} {s : σ} {Q : β → σ → Prop} :
    Returns (m >>= f) s Q ↔ Returns m s fun a s' => Returns (f a) s' Q := by
  constructor
  · rintro ⟨b, t, h, hq⟩
    rw [exec_bind] at h
    rcases hm : exec m s with ⟨r, s'⟩
    rw [hm] at h
    cases r with
    | error e => cases h
    | ok a => exact ⟨a, s', hm, b, t, h, hq⟩
  · rintro ⟨a, s', hm, b, t, hf, hq⟩
    exact ⟨b, t, by rw [exec_bind_ok hm, hf], hq⟩

/-- A part that is known to return, and what comes after it. -/
theorem Returns.bind {m : StopM ε σ α} {f : α → StopM ε σ β} {s : σ} {R : α → σ → Prop}
    {Q : β → σ → Prop} (h : Returns m s R) (hf : ∀ a s', R a s' → Returns (f a) s' Q) :
    Returns (m >>= f) s Q := returns_bind.mpr (h.mono hf)

theorem returns_bind_exec {m : StopM ε σ α} {f : α → StopM ε σ β} {s s' : σ} {a : α}
    {Q : β → σ → Prop} (h : exec m s = (.ok a, s')) :
    Returns (m >>= f) s Q ↔ Returns (f a) s' Q := returns_bind.trans (returns_of_exec h)

end StopM
