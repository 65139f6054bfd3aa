/-
Streams of runs: a header in front of each run of blocks, nothing in between.

Keyed blocks come in runs of consecutive keys; the stream has the header of the
first key of each run and then its blocks, and does not say where a run ends.

* `runs`, `blocks` — a list of keyed blocks and its runs of consecutive keys;
* `streamFrom_eq_runs` — writing a header wherever the key does not continue
  the last one gives the stream of the runs;
* **`runs_eq_of_stream`** — a stream can be parsed once the lengths of the runs
  are known.

Keys are of any type with a successor, blocks are lists over any type.
-/
import Mathlib

namespace RunStream

variable {κ α β : Type*}

/-- The keyed blocks of one run. -/
def runBlocks (succ : κ → κ) : κ → List α → List (κ × α)
  | _, [] => []
  | k, x :: xs => (k, x) :: runBlocks succ (succ k) xs

/-- The keyed blocks of all runs. -/
def blocks (succ : κ → κ) (rs : List (κ × List α)) : List (κ × α) :=
  rs.flatMap fun r => runBlocks succ r.1 r.2

/-- The stream of the runs `rs`. -/
def stream (header : κ → List β) (rs : List (κ × List (List β))) : List β :=
  rs.flatMap fun r => header r.1 ++ r.2.flatten

variable {succ : κ → κ} {header : κ → List β}

/-! ### Parsing -/

/-- Lists of equally many blocks of one size are told apart by their bytes. -/
theorem flatten_append_inj {size : ℕ} {xs ys : List (List β)} {s t : List β}
    (hxs : ∀ x ∈ xs, x.length = size) (hys : ∀ y ∈ ys, y.length = size)
    (hlen : xs.length = ys.length) (h : xs.flatten ++ s = ys.flatten ++ t) :
    xs = ys ∧ s = t := by
  induction xs generalizing ys with
  | nil =>
    obtain rfl : ys = [] := List.length_eq_zero_iff.mp hlen.symm
    exact ⟨rfl, h⟩
  | cons x xs ih =>
    obtain _ | ⟨y, ys⟩ := ys
    · simp at hlen
    rw [List.flatten_cons, List.flatten_cons, List.append_assoc, List.append_assoc] at h
    have hsize : x.length = y.length := by
      rw [hxs x List.mem_cons_self, hys y List.mem_cons_self]
    obtain ⟨rfl, hrest⟩ := List.append_inj h hsize
    obtain ⟨rfl, hst⟩ := ih (fun x hx => hxs x (List.mem_cons_of_mem _ hx))
      (fun y hy => hys y (List.mem_cons_of_mem _ hy)) (by simpa using hlen) hrest
    exact ⟨rfl, hst⟩

/-- **Unique parsing**: with headers of one length, blocks of one size and known
lengths of the runs, the stream determines the runs. -/
theorem runs_eq_of_stream {size len : ℕ} (hheader : Function.Injective header)
    (hlen : ∀ k, (header k).length = len) {rs rs' : List (κ × List (List β))}
    (hrs : ∀ r ∈ rs, ∀ x ∈ r.2, x.length = size) (hrs' : ∀ r ∈ rs', ∀ x ∈ r.2, x.length = size)
    (hlengths : rs.map (fun r => r.2.length) = rs'.map fun r => r.2.length)
    (h : stream header rs = stream header rs') : rs = rs' := by
  induction rs generalizing rs' with
  | nil =>
    obtain rfl : rs' = [] := List.map_eq_nil_iff.mp hlengths.symm
    rfl
  | cons r rs ih =>
    obtain _ | ⟨r', rs'⟩ := rs'
    · simp at hlengths
    obtain ⟨hone, hothers⟩ := List.cons.inj hlengths
    rw [stream, stream, List.flatMap_cons, List.flatMap_cons, ← stream, ← stream,
      List.append_assoc, List.append_assoc] at h
    obtain ⟨hkey, hrest⟩ := List.append_inj h (by rw [hlen, hlen])
    obtain ⟨hblocks, htail⟩ := flatten_append_inj (hrs r List.mem_cons_self)
      (hrs' r' List.mem_cons_self) hone hrest
    obtain rfl := ih (fun r hr => hrs r (List.mem_cons_of_mem _ hr))
      (fun r hr => hrs' r (List.mem_cons_of_mem _ hr)) hothers htail
    rw [Prod.ext (hheader hkey) hblocks]

/-! ### Runs of consecutive keys -/

variable [DecidableEq κ]

/-- The runs of consecutive keys in a list of keyed blocks: the first key of
each run, and its blocks. -/
def runs (succ : κ → κ) : List (κ × α) → List (κ × List α)
  | [] => []
  | (k, x) :: rest =>
    match runs succ rest with
    | [] => [(k, [x])]
    | (k', xs) :: tail =>
      if k' = succ k then (k, x :: xs) :: tail else (k, [x]) :: (k', xs) :: tail

/-- The stream as it is written block by block: `last` is the key of the
block before. -/
def streamFrom (succ : κ → κ) (header : κ → List β) : Option κ → List (κ × List β) → List β
  | _, [] => []
  | last, (k, x) :: rest =>
    (if last.map succ = some k then [] else header k) ++ x ++
      streamFrom succ header (some k) rest

/-- Nothing is lost in the runs. -/
theorem blocks_runs (l : List (κ × α)) : blocks succ (runs succ l) = l := by
  induction l with
  | nil => rfl
  | cons p rest ih =>
    obtain ⟨k, x⟩ := p
    rw [runs]
    rcases hrest : runs succ rest with _ | ⟨⟨k', xs⟩, tail⟩ <;> rw [hrest] at ih
    · rw [← ih]
      rfl
    · by_cases hk : k' = succ k
      · subst hk
        simp only [if_true]
        rw [← ih]
        rfl
      · simp only [if_neg hk]
        rw [← ih]
        rfl

/-- The first run starts with the first key. -/
theorem runs_cons (k : κ) (x : α) (rest : List (κ × α)) :
    ∃ xs tail, runs succ ((k, x) :: rest) = (k, xs) :: tail := by
  rw [runs]
  rcases runs succ rest with _ | ⟨⟨k', xs⟩, tail⟩
  · exact ⟨[x], [], rfl⟩
  · by_cases hk : k' = succ k
    · exact ⟨x :: xs, tail, by simp [hk]⟩
    · exact ⟨[x], (k', xs) :: tail, by simp [hk]⟩

/-- The stream of the runs, from the second block on. -/
theorem stream_runs_cons (k : κ) (x : List β) (rest : List (κ × List β)) :
    stream header (runs succ ((k, x) :: rest)) =
      header k ++ (x ++ streamFrom succ header (some k) rest) := by
  induction rest generalizing k x with
  | nil => simp [runs, stream, streamFrom]
  | cons p rest ih =>
    obtain ⟨k', x'⟩ := p
    obtain ⟨xs, tail, htail⟩ := @runs_cons _ _ succ _ k' x' rest
    have hrest : xs.flatten ++ stream header tail =
        x' ++ streamFrom succ header (some k') rest := by
      have h := ih k' x'
      rw [htail, stream, List.flatMap_cons, List.append_assoc] at h
      exact List.append_cancel_left h
    rw [runs, htail]
    by_cases hk : k' = succ k
    · -- the run goes on: no header is written
      simp only [if_pos hk]
      rw [stream, List.flatMap_cons, List.flatten_cons, streamFrom,
        if_pos (by rw [hk]; rfl), ← stream, List.nil_append, ← hrest]
      simp only [List.append_assoc]
    · simp only [if_neg hk]
      have hne : ¬ (some k).map succ = some k' := fun h => hk (Option.some.inj h).symm
      rw [stream, List.flatMap_cons, List.flatMap_cons, ← stream, streamFrom, if_neg hne]
      simp only [List.append_assoc]
      rw [hrest]
      simp

/-- The stream written block by block is the stream of the runs. -/
theorem streamFrom_eq_runs (l : List (κ × List β)) :
    streamFrom succ header none l = stream header (runs succ l) := by
  obtain _ | ⟨⟨k, x⟩, rest⟩ := l
  · rfl
  · rw [stream_runs_cons, streamFrom, if_neg (by simp)]
    simp only [List.append_assoc]

/-- The blocks in the runs are those of the list. -/
theorem mem_of_mem_runs {l : List (κ × α)} {r : κ × List α} (hr : r ∈ runs succ l) {x : α}
    (hx : x ∈ r.2) : ∃ k, (k, x) ∈ l := by
  have hmem : ∀ (k : κ) (xs : List α), x ∈ xs → ∃ k', (k', x) ∈ runBlocks succ k xs := by
    intro k xs hxs
    induction xs generalizing k with
    | nil => exact absurd hxs List.not_mem_nil
    | cons y ys ih =>
      obtain rfl | hys := List.mem_cons.mp hxs
      · exact ⟨k, List.mem_cons_self⟩
      · obtain ⟨k', h⟩ := ih (succ k) hys
        exact ⟨k', List.mem_cons_of_mem _ h⟩
  obtain ⟨k, h⟩ := hmem r.1 r.2 hx
  refine ⟨k, ?_⟩
  rw [← @blocks_runs _ _ succ _ l]
  exact List.mem_flatMap.mpr ⟨r, hr, h⟩

end RunStream
