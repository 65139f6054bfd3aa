/-
Which replies of the host keep `fread` and `fgets` inside the caller's buffer.

* `FreadInside`, `FgetsInside` — every byte stored is in the buffer, and a line is
  terminated;
* `ReplyFits`, `LineFits` — what the replies have to be like for that;
* `fread_inside_iff`, `read_inside_iff` — one request;
* `fgetsLoop_inside` — the loop of `fgets`, round by round, for replies that fit;
* `lineFits_of_inside` — replies without negative counts that do not fit;
* **`fileReads_inside_iff`** — the two functions together.
-/
import KeystoneSdk.FileProxy

open ByteMemory AccessLog StopM

namespace KeystoneSdk

/-! ### The claim -/

/-- The state a call starts in, with a memory of its own to log. -/
def FileState.start (m : Mem) (imageName : List Byte) (offsetInFile : BitVec 64) : FileState :=
  ⟨⟨m, [], []⟩, imageName, offsetInFile, []⟩

/-- A host that answers the `k`th request with `replies k`, whatever is asked. -/
def FileProxy.hostile (heap : ℕ → Option Byte) (replies : ℕ → FileReply) : FileProxy where
  imageBlock := true
  fileData := heap
  ocall := fun k _ => replies k

/-- All bytes stored are in the region. -/
def StoredIn (R : Span) (s : FileState) : Prop := ∀ b ∈ s.touched.writes, R.Covers b.1 b.2

/-- `fread` stores in `[ptr, ptr + size * nmemb)` only. -/
def FreadInside (p : FileProxy) (s : FileState) (ptr : Addr) (size nmemb : BitVec 64) : Prop :=
  StoredIn ⟨ptr, size.toNat * nmemb.toNat⟩ (exec (p.fread ptr size nmemb) s).2

/-- `fgets` stores in `[s, s + size)` only, in any number of rounds, and when it returns
a string there is a NUL in the buffer. -/
structure FgetsInside (p : FileProxy) (st : FileState) (s : Addr) (size : BitVec 32) : Prop where
  stored : ∀ rounds, StoredIn ⟨s, size.toInt.toNat⟩ (exec (p.fgets rounds s size) st).2
  terminated : ∀ rounds a st', exec (p.fgets rounds s size) st = (.ok (some a), st') →
    a = s ∧ ∃ j, j < size.toInt.toNat ∧ st'.touched.mem (s + BitVec.ofNat 64 j) = 0

/-! ### Replies that fit -/

/-- A reply that `fread` may copy: it has no more bytes than the buffer, or so many that
`memcpy` stores none. -/
def ReplyFits (ptr : Addr) (size nmemb : BitVec 64) (r : FileReply) : Prop :=
  (r.count.signExtend 64 * size).toNat ≤ size.toNat * nmemb.toNat ∨
    2 ^ 64 ≤ ptr.toNat + (r.count.signExtend 64 * size).toNat

/-- What the first `k` replies add up to. -/
def position (replies : ℕ → FileReply) (k : ℕ) : ℤ :=
  ((List.range k).map fun j => (replies j).count.toInt).sum

theorem position_succ (replies : ℕ → FileReply) (k : ℕ) :
    position replies (k + 1) = position replies k + (replies k).count.toInt := by
  rw [position, List.range_succ, List.map_append, List.sum_append]
  simp [position]

/-- The reply does not end the line: neither the end of the file nor a newline. -/
def FileReply.GoesOn (r : FileReply) : Prop :=
  r.count ≠ 0#32 ∧ (0 < r.count.toInt → r.data 0 ≠ newline)

/-- As long as the line goes on, the replies add up to less than the size. -/
def LineFits (heap : ℕ → Option Byte) (replies : ℕ → FileReply) (size : BitVec 32) : Prop :=
  ∀ k, (∀ j, j ≤ k → (heap j).isSome) → (∀ j, j < k → (replies j).GoesOn) →
    0 ≤ position replies (k + 1) ∧ position replies (k + 1) < size.toInt

/-! ### One read -/

theorem storedBytes_le (dest : Addr) (len : BitVec 64) : storedBytes dest len ≤ len.toNat := by
  rw [storedBytes]
  split
  · exact le_refl _
  · exact Nat.zero_le _

/-- A block at the start of a region. -/
theorem covers_start_iff (a : Addr) (len : ℕ) {n : ℕ} (hn : n < 2 ^ 64) :
    (⟨a, len⟩ : Span).Covers a n ↔ n ≤ len := by
  have hcontains : ∀ i, i < n → ((⟨a, len⟩ : Span).Contains (a + BitVec.ofNat 64 i) ↔ i < len) := by
    intro i hi
    rw [Span.Contains, Span.offset_start_add _ (by omega)]
  constructor
  · intro h
    by_contra hlt
    have hlast := (hcontains len (by omega)).mp (h len (by omega))
    exact lt_irrefl _ hlast
  · intro h i hi
    exact (hcontains i hi).mpr (by omega)

/-- **`fread`** stays inside the buffer iff a `malloc` fails or the reply fits. -/
theorem fread_inside_iff (heap : ℕ → Option Byte) (replies : ℕ → FileReply) (m : Mem)
    (name : List Byte) (offset : BitVec 64) (ptr : Addr) (size nmemb : BitVec 64) :
    FreadInside (.hostile heap replies) (.start m name offset) ptr size nmemb ↔
      heap 0 = none ∨ ReplyFits ptr size nmemb (replies 0) := by
  rcases hheap : heap 0 with _ | behind
  · have hrun := exec_fread_none (p := .hostile heap replies) (s := .start m name offset)
      hheap ptr size nmemb
    rw [FreadInside, hrun]
    exact iff_of_true (fun _ hb => absurd hb List.not_mem_nil) (Or.inl rfl)
  · have hrun := exec_fread_some (p := .hostile heap replies) (s := .start m name offset)
      hheap ptr size nmemb rfl
    have hlen := ((replies 0).count.signExtend 64 * size).isLt
    have hle := storedBytes_le ptr ((replies 0).count.signExtend 64 * size)
    have hwrites : FreadInside (.hostile heap replies) (.start m name offset) ptr size nmemb ↔
        (⟨ptr, size.toNat * nmemb.toNat⟩ : Span).Covers ptr
          (storedBytes ptr ((replies 0).count.signExtend 64 * size)) := by
      rw [FreadInside, hrun]
      exact List.forall_mem_singleton
    rw [hwrites, covers_start_iff _ _ (by omega), or_iff_right (by simp), ReplyFits, storedBytes]
    split
    · next h => exact (or_iff_left (by omega)).symm
    · next h => exact iff_of_true (Nat.zero_le _) (Or.inr (by omega))

/-- **`read`** stays inside its `count` bytes under the same condition. -/
theorem read_inside_iff (heap : ℕ → Option Byte) (replies : ℕ → FileReply) (m : Mem)
    (name : List Byte) (offset : BitVec 64) (buf : Addr) (count : BitVec 64) :
    StoredIn ⟨buf, count.toNat⟩
        (exec ((FileProxy.hostile heap replies).read buf count) (.start m name offset)).2 ↔
      heap 0 = none ∨ ReplyFits buf 1#64 count (replies 0) := by
  have hfread := fread_inside_iff heap replies m name offset buf 1#64 count
  have hone : (1#64).toNat * count.toNat = count.toNat := Nat.one_mul _
  rw [FreadInside, hone, ← FileProxy.read_eq_fread] at hfread
  exact hfread

/-! ### Positions and addresses -/

/-- An `int` as a `size_t`. -/
theorem signExtend_toNat (c : BitVec 32) :
    (c.signExtend 64).toNat = if c.toInt < 0 then (2 ^ 64 + c.toInt).toNat else c.toInt.toNat := by
  have hsign : (c.signExtend 64).toInt = c.toInt := BitVec.toInt_signExtend_of_le (by norm_num)
  have hlt := (c.signExtend 64).isLt
  rw [BitVec.toInt_eq_toNat_cond] at hsign
  split at hsign <;> split <;> omega

theorem setWidth_signExtend (c : BitVec 32) : (c.signExtend 64).setWidth 32 = c := by
  apply BitVec.eq_of_toNat_eq
  have hc := c.isLt
  have hcond := BitVec.toInt_eq_toNat_cond c
  rw [BitVec.toNat_setWidth, signExtend_toNat]
  split at hcond <;> split <;> omega

theorem signExtend_ofNat {q : ℕ} (hq : q < 2 ^ 31) :
    (BitVec.ofNat 32 q).signExtend 64 = BitVec.ofNat 64 q := by
  apply BitVec.eq_of_toNat_eq
  have hint : (BitVec.ofNat 32 q).toInt = q := by
    rw [BitVec.toInt_eq_toNat_cond, BitVec.toNat_ofNat, Nat.mod_eq_of_lt (by omega),
      if_pos (by omega)]
  rw [signExtend_toNat, hint, if_neg (by omega), BitVec.toNat_ofNat, Nat.mod_eq_of_lt (by omega)]
  omega

/-- Adding a count to a position, as `int`s. -/
theorem ofNat_add_count {q q' : ℕ} {c : BitVec 32} (h : (q' : ℤ) = q + c.toInt) :
    BitVec.ofNat 32 q + c = BitVec.ofNat 32 q' := by
  apply BitVec.eq_of_toNat_eq
  have hc := c.isLt
  have hcond := BitVec.toInt_eq_toNat_cond c
  rw [BitVec.toNat_add, BitVec.toNat_ofNat, BitVec.toNat_ofNat]
  split at hcond <;> omega

/-- A block inside a region. -/
theorem covers_offset_iff (a : Addr) (len : ℕ) {q n : ℕ} (hn : 0 < n) (hq : q + n ≤ 2 ^ 64) :
    (⟨a, len⟩ : Span).Covers (a + BitVec.ofNat 64 q) n ↔ q + n ≤ len := by
  have hcontains : ∀ i, i < n →
      ((⟨a, len⟩ : Span).Contains (a + BitVec.ofNat 64 q + BitVec.ofNat 64 i) ↔ q + i < len) := by
    intro i hi
    rw [Span.Contains, BitVec.add_assoc, ← BitVec.ofNat_add, Span.offset_start_add _ (by omega)]
  constructor
  · intro h
    have hlast := (hcontains (n - 1) (by omega)).mp (h (n - 1) (by omega))
    omega
  · intro h i hi
    exact (hcontains i hi).mpr (by omega)

theorem covers_offset (a : Addr) {len q n : ℕ} (h : q + n ≤ len) (hq : q + n ≤ 2 ^ 64) :
    (⟨a, len⟩ : Span).Covers (a + BitVec.ofNat 64 q) n := by
  rcases Nat.eq_zero_or_pos n with rfl | hn
  · exact fun i hi => absurd hi (Nat.not_lt_zero i)
  · exact (covers_offset_iff a len hn hq).mpr h

/-- What a count stores behind a position, away from the end of the address space: nothing
if it is negative. -/
theorem storedBytes_count {a : Addr} {q : ℕ} {c : BitVec 32} (hend : a.toNat + q + c.toInt.toNat < 2 ^ 64)
    (hpos : 0 ≤ q + c.toInt) :
    storedBytes (a + BitVec.ofNat 64 q) (c.signExtend 64 * 1#64) = c.toInt.toNat := by
  have haddr : (a + BitVec.ofNat 64 q).toNat = a.toNat + q := by
    rw [BitVec.toNat_add, BitVec.toNat_ofNat]
    omega
  rw [storedBytes, BitVec.mul_one, haddr, signExtend_toNat]
  by_cases hneg : c.toInt < 0
  · rw [if_pos hneg, if_neg (by omega)]
    omega
  · rw [if_neg hneg, if_pos (by omega)]

/-! ### A round of `fgets` -/

section Round

variable {p : FileProxy} {st : FileState} {a : Addr}

theorem exec_fgetsLoop_none (h : p.fileData st.requests.length = none) (n : ℕ) (i : BitVec 32) :
    exec (p.fgetsLoop a (n + 1) i) st = (.error .segfault, st) := by
  rw [FileProxy.fgetsLoop]
  exact exec_bind_error (exec_fread_none h _ _ _)

/-- A round in which the reply is `r`. -/
theorem exec_fgetsLoop_some {behind : Byte} (h : p.fileData st.requests.length = some behind)
    (n : ℕ) (i : BitVec 32) {r : FileReply}
    (hr : p.ocall st.requests.length (st.request 1#64 1#64 behind) = r) :
    exec (p.fgetsLoop a (n + 1) i) st =
      let st' := { st.answered (st.request 1#64 1#64 behind) (a + i.signExtend 64)
          (storedBytes (a + i.signExtend 64) (r.count.signExtend 64 * 1#64)) r.data with
        offsetInFile := st.offsetInFile + 1#64 * r.count.signExtend 64 }
      if r.count ≠ 0#32 ∧ st'.touched.mem (a + i.signExtend 64) ≠ newline then
        exec (p.fgetsLoop a n (i + r.count)) st'
      else (.ok (i + r.count), st') := by
  rw [FileProxy.fgetsLoop, exec_bind_ok (exec_fread_some h _ _ _ hr), setWidth_signExtend,
    exec_bind, exec_get]
  simp only
  split
  · rfl
  · rfl

theorem writeBytes_first (m : Mem) (b : Addr) {n : ℕ} (f : ℕ → Byte) (hn : 0 < n) (hn' : n ≤ 2 ^ 64) :
    writeBytes m b n f b = f 0 := by
  have hinside := writeBytes_inside m b f hn hn'
  rwa [BitVec.add_zero] at hinside

/-- The state after a round whose reply fits. -/
def FileState.afterRound (st : FileState) (a : Addr) (q : ℕ) (behind : Byte) (r : FileReply) :
    FileState :=
  { st.answered (st.request 1#64 1#64 behind) (a + BitVec.ofNat 64 q) r.count.toInt.toNat r.data with
    offsetInFile := st.offsetInFile + 1#64 * r.count.signExtend 64 }

/-- A round at position `q`, away from the end of the address space. -/
theorem exec_fgetsLoop_round {behind : Byte} (h : p.fileData st.requests.length = some behind)
    (n : ℕ) {q q' : ℕ} {r : FileReply}
    (hr : p.ocall st.requests.length (st.request 1#64 1#64 behind) = r) (hq : q < 2 ^ 31)
    (hq' : (q' : ℤ) = q + r.count.toInt) (hend : a.toNat + q + r.count.toInt.toNat < 2 ^ 64) :
    exec (p.fgetsLoop a (n + 1) (BitVec.ofNat 32 q)) st =
      if r.count ≠ 0#32 ∧
          (st.afterRound a q behind r).touched.mem (a + BitVec.ofNat 64 q) ≠ newline then
        exec (p.fgetsLoop a n (BitVec.ofNat 32 q')) (st.afterRound a q behind r)
      else (.ok (BitVec.ofNat 32 q'), st.afterRound a q behind r) := by
  rw [exec_fgetsLoop_some h n _ hr, signExtend_ofNat hq, storedBytes_count hend (by omega),
    ofNat_add_count hq']
  rfl

/-- What the loop looks at is the first byte of the reply, if there is one. -/
theorem afterRound_first {q : ℕ} {behind : Byte} {r : FileReply} (hpos : 0 < r.count.toInt) :
    (st.afterRound a q behind r).touched.mem (a + BitVec.ofNat 64 q) = r.data 0 := by
  have hlt := BitVec.toInt_lt (x := r.count)
  exact writeBytes_first _ _ _ (by omega) (by omega)

end Round

/-! ### Replies that fit stay inside -/

section Fits

variable {heap : ℕ → Option Byte} {replies : ℕ → FileReply} {a : Addr} {size : BitVec 32}

theorem storedIn_afterRound {st : FileState} {q : ℕ} {behind : Byte} {r : FileReply} {len : ℕ}
    (hst : StoredIn ⟨a, len⟩ st) (hfit : q + r.count.toInt.toNat ≤ len)
    (hlen : q + r.count.toInt.toNat ≤ 2 ^ 64) :
    StoredIn ⟨a, len⟩ (st.afterRound a q behind r) := by
  intro b hb
  rcases List.mem_append.mp hb with hb | hb
  · exact hst b hb
  · rw [List.mem_singleton.mp hb]
    exact covers_offset a hfit hlen

/-- **The loop of `fgets`** from round `k` on, if the replies fit. -/
theorem fgetsLoop_inside (hfits : LineFits heap replies size)
    (hbuffer : a.toNat + size.toInt.toNat < 2 ^ 64) {n k q : ℕ} {st : FileState}
    (hk : st.requests.length = k) (hgo : ∀ j, j < k → (replies j).GoesOn)
    (hheap : ∀ j, j < k → (heap j).isSome) (hq : position replies k = q)
    (hle : q ≤ size.toInt.toNat) (hst : StoredIn ⟨a, size.toInt.toNat⟩ st) :
    StoredIn ⟨a, size.toInt.toNat⟩
        (exec ((FileProxy.hostile heap replies).fgetsLoop a n (BitVec.ofNat 32 q)) st).2 ∧
      ∀ i st', exec ((FileProxy.hostile heap replies).fgetsLoop a n (BitVec.ofNat 32 q)) st =
        (.ok i, st') → ∃ q', i = BitVec.ofNat 32 q' ∧ q' < size.toInt.toNat := by
  induction n generalizing k q st with
  | zero => exact ⟨hst, fun i st' h => by cases h⟩
  | succ n ih =>
    have hsize := BitVec.toInt_lt (x := size)
    rcases hblock : heap k with _ | behind
    · have hnone : (FileProxy.hostile heap replies).fileData st.requests.length = none := by
        rw [hk]
        exact hblock
      rw [exec_fgetsLoop_none hnone]
      exact ⟨hst, fun i st' h => by cases h⟩
    · have hheap' : ∀ j, j ≤ k → (heap j).isSome := by
        intro j hj
        rcases Nat.lt_or_eq_of_le hj with hj | rfl
        · exact hheap j hj
        · rw [hblock]
          rfl
      have hsome : (FileProxy.hostile heap replies).fileData st.requests.length = some behind := by
        rw [hk]
        exact hblock
      have hreply : (FileProxy.hostile heap replies).ocall st.requests.length
          (st.request 1#64 1#64 behind) = replies k := by
        rw [hk]
        rfl
      obtain ⟨hpos, hposlt⟩ := hfits k hheap' hgo
      have hsucc := position_succ replies k
      rw [hq] at hsucc
      obtain ⟨q', hq'⟩ := Int.eq_ofNat_of_zero_le hpos
      rw [hq'] at hsucc hposlt
      -- a negative count stores nothing
      have hfit : q + (replies k).count.toInt.toNat ≤ size.toInt.toNat := by omega
      have hin : StoredIn _ (st.afterRound a q behind (replies k)) :=
        storedIn_afterRound hst hfit (by omega)
      rw [exec_fgetsLoop_round hsome n hreply (by omega) hsucc (by omega)]
      split
      · next hon =>
        have hgoes : (replies k).GoesOn := by
          refine ⟨hon.1, fun hcount hdata => hon.2 ?_⟩
          rw [afterRound_first hcount, hdata]
        refine ih (k := k + 1) ?_ ?_ ?_ hq' (by omega) hin
        · show (st.requests ++ [_]).length = k + 1
          rw [List.length_append, hk, List.length_singleton]
        · intro j hj
          rcases Nat.lt_succ_iff_lt_or_eq.mp hj with hj | rfl
          · exact hgo j hj
          · exact hgoes
        · exact fun j hj => hheap' j (Nat.lt_succ_iff.mp hj)
      · refine ⟨hin, fun i st' h => ?_⟩
        cases h
        exact ⟨q', rfl, by omega⟩

theorem exec_fgets_error {p : FileProxy} {rounds : ℕ} {st st' : FileState} {e : FileStop}
    (h : exec (p.fgetsLoop a rounds 0#32) st = (.error e, st')) :
    exec (p.fgets rounds a size) st = (.error e, st') := exec_bind_error h

/-- The terminating NUL. -/
theorem exec_fgets_ok {p : FileProxy} {rounds : ℕ} {st st' : FileState} {i : BitVec 32}
    (h : exec (p.fgetsLoop a rounds 0#32) st = (.ok i, st')) :
    exec (p.fgets rounds a size) st = (.ok (if i = 0#32 then none else some a),
      { st' with touched := { st'.touched with
          mem := writeBytes st'.touched.mem (a + i.signExtend 64) 1 fun _ => 0
          writes := st'.touched.writes ++ [(a + i.signExtend 64, 1)] } }) := by
  rw [FileProxy.fgets, exec_bind_ok h]
  rfl

/-- **`fgets` stays inside the buffer** if the replies fit. -/
theorem fgets_inside (hfits : LineFits heap replies size)
    (hbuffer : a.toNat + size.toInt.toNat < 2 ^ 64) (m : Mem) (name : List Byte)
    (offset : BitVec 64) :
    FgetsInside (.hostile heap replies) (.start m name offset) a size := by
  have hsize := BitVec.toInt_lt (x := size)
  have hempty : StoredIn ⟨a, size.toInt.toNat⟩ (.start m name offset) :=
    fun b hb => absurd hb List.not_mem_nil
  -- the loop stays inside and ends at a position of the buffer, where the NUL goes
  have hloop : ∀ rounds, _ := fun rounds =>
    fgetsLoop_inside hfits hbuffer (n := rounds) (k := 0) (q := 0) rfl
      (fun j hj => absurd hj (Nat.not_lt_zero j)) (fun j hj => absurd hj (Nat.not_lt_zero j)) rfl
      (Nat.zero_le _) hempty
  constructor
  · intro rounds
    obtain ⟨hin, hend⟩ := hloop rounds
    rcases hrun : exec ((FileProxy.hostile heap replies).fgetsLoop a rounds 0#32)
      (.start m name offset) with ⟨r, st'⟩
    rw [hrun] at hin
    cases r with
    | error e =>
      rw [exec_fgets_error hrun]
      exact hin
    | ok i =>
      obtain ⟨q, rfl, hq⟩ := hend i st' hrun
      rw [exec_fgets_ok hrun, signExtend_ofNat (by omega)]
      intro b hb
      rcases List.mem_append.mp hb with hb | hb
      · exact hin b hb
      · rw [List.mem_singleton.mp hb]
        exact covers_offset a (by omega) (by omega)
  · intro rounds b st'' hret
    obtain ⟨_, hend⟩ := hloop rounds
    rcases hrun : exec ((FileProxy.hostile heap replies).fgetsLoop a rounds 0#32)
      (.start m name offset) with ⟨r, st'⟩
    cases r with
    | error e =>
      rw [exec_fgets_error hrun] at hret
      cases hret
    | ok i =>
      obtain ⟨q, rfl, hq⟩ := hend i st' hrun
      rw [exec_fgets_ok hrun, signExtend_ofNat (by omega)] at hret
      obtain ⟨hres, hst⟩ := Prod.mk.inj hret
      subst hst
      have hone : 1 ≤ 2 ^ 64 := by norm_num
      have hnul : writeBytes st'.touched.mem (a + BitVec.ofNat 64 q) 1 (fun _ => 0)
          (a + BitVec.ofNat 64 q) = 0 := writeBytes_first _ _ (fun _ => 0) Nat.one_pos hone
      refine ⟨?_, q, hq, hnul⟩
      split at hres
      · cases hres
      · cases hres
        rfl

end Fits

/-! ### Replies that do not fit -/

section Overflow

variable {heap : ℕ → Option Byte} {replies : ℕ → FileReply} {a : Addr} {size : BitVec 32}

theorem position_nonneg (hcounts : ∀ k, 0 ≤ (replies k).count.toInt) (k : ℕ) :
    0 ≤ position replies k := by
  induction k with
  | zero => exact le_refl _
  | succ k ih =>
    have hk := hcounts k
    rw [position_succ]
    omega

/-- The loop gets to round `k` when the line goes on until there. -/
theorem fgetsLoop_reaches (hbuffer : a.toNat + 2 ^ 32 ≤ 2 ^ 64) (hheap : ∀ k, (heap k).isSome)
    (hcounts : ∀ k, 0 ≤ (replies k).count.toInt) (st₀ : FileState) (hst₀ : st₀.requests = [])
    {k : ℕ} (hgo : ∀ j, j < k → (replies j).GoesOn)
    (hfit : ∀ j, j < k → position replies (j + 1) < 2 ^ 31) :
    ∃ st q, st.requests.length = k ∧ position replies k = (q : ℕ) ∧ ∀ n,
      exec ((FileProxy.hostile heap replies).fgetsLoop a (n + k) 0#32) st₀ =
        exec ((FileProxy.hostile heap replies).fgetsLoop a n (BitVec.ofNat 32 q)) st := by
  -- on the rounds: the position after `k` of them is the sum of the counts so far
  induction k with
  | zero =>
    refine ⟨st₀, 0, ?_, rfl, fun n => rfl⟩
    rw [hst₀]
    rfl
  | succ k ih =>
    obtain ⟨st, q, hk, hq, hrun⟩ := ih (fun j hj => hgo j (by omega)) fun j hj => hfit j (by omega)
    obtain ⟨behind, hblock⟩ := Option.isSome_iff_exists.mp (hheap k)
    have hsome : (FileProxy.hostile heap replies).fileData st.requests.length = some behind := by
      rw [hk]
      exact hblock
    have hreply : (FileProxy.hostile heap replies).ocall st.requests.length
        (st.request 1#64 1#64 behind) = replies k := by
      rw [hk]
      rfl
    have hpos := position_nonneg hcounts (k + 1)
    have hlt := hfit k (Nat.lt_succ_self k)
    have hcount := hcounts k
    have hsucc := position_succ replies k
    rw [hq] at hsucc
    obtain ⟨q', hq'⟩ := Int.eq_ofNat_of_zero_le hpos
    rw [hq'] at hsucc hlt
    refine ⟨st.afterRound a q behind (replies k), q', ?_, hq', fun n => ?_⟩
    · show (st.requests ++ [_]).length = k + 1
      rw [List.length_append, hk, List.length_singleton]
    · obtain ⟨hne, hdata⟩ := hgo k (Nat.lt_succ_self k)
      have hcountpos : 0 < (replies k).count.toInt := by
        rcases lt_or_eq_of_le hcount with hlt' | heq
        · exact hlt'
        · exact absurd (BitVec.eq_of_toInt_eq heq.symm) hne
      rw [show n + (k + 1) = n + 1 + k by omega, hrun,
        exec_fgetsLoop_round hsome n hreply (by omega) hsucc (by omega), if_pos]
      refine ⟨hne, ?_⟩
      rw [afterRound_first hcountpos]
      exact hdata hcountpos

/-- The bytes the loop stored are among those of `fgets`, and the NUL too. -/
theorem storedIn_loop {p : FileProxy} {rounds : ℕ} {st : FileState} {R : Span}
    (h : StoredIn R (exec (p.fgets rounds a size) st).2) :
    StoredIn R (exec (p.fgetsLoop a rounds 0#32) st).2 ∧
      ∀ i, (exec (p.fgetsLoop a rounds 0#32) st).1 = .ok i →
        R.Covers (a + i.signExtend 64) 1 := by
  rcases hrun : exec (p.fgetsLoop a rounds 0#32) st with ⟨r, st'⟩
  cases r with
  | error e =>
    rw [exec_fgets_error hrun] at h
    exact ⟨h, fun i hi => by cases hi⟩
  | ok i =>
    rw [exec_fgets_ok hrun] at h
    refine ⟨fun b hb => h b (List.mem_append_left _ hb), fun i' hi' => ?_⟩
    cases hi'
    exact h _ (List.mem_append_right _ (List.mem_singleton.mpr rfl))

/-- One more round, at a position from which nothing but the end of the buffer is left. -/
theorem not_inside_at_end (hbuffer : a.toNat + 2 ^ 32 ≤ 2 ^ 64) {p : FileProxy} {st : FileState}
    {behind : Byte} {r : FileReply} {q : ℕ} (hlt : q < 2 ^ 31) (hq : size.toInt.toNat ≤ q)
    (hsome : p.fileData st.requests.length = some behind)
    (hreply : p.ocall st.requests.length (st.request 1#64 1#64 behind) = r)
    (hcount : 0 ≤ r.count.toInt)
    (hin : StoredIn ⟨a, size.toInt.toNat⟩ (exec (p.fgetsLoop a 1 (BitVec.ofNat 32 q)) st).2)
    (hnul : ∀ i, (exec (p.fgetsLoop a 1 (BitVec.ofNat 32 q)) st).1 = .ok i →
      (⟨a, size.toInt.toNat⟩ : Span).Covers (a + i.signExtend 64) 1) : False := by
  have hclt := BitVec.toInt_lt (x := r.count)
  have hend : a.toNat + q + r.count.toInt.toNat < 2 ^ 64 := by omega
  have hq' : ((q + r.count.toInt.toNat : ℕ) : ℤ) = q + r.count.toInt := by omega
  rw [exec_fgetsLoop_round hsome 0 hreply hlt hq' hend] at hin hnul
  by_cases hzero : r.count.toInt = 0
  · -- the end of the file: the NUL goes behind the buffer
    have hcount0 : r.count = 0#32 := BitVec.eq_of_toInt_eq hzero
    rw [if_neg fun h => h.1 hcount0] at hnul
    have hcover := hnul _ rfl
    rw [hzero, Int.toNat_zero, Nat.add_zero, signExtend_ofNat hlt,
      covers_offset_iff a _ Nat.one_pos (by omega)] at hcover
    omega
  · -- a byte goes behind the buffer
    have hblock : (a + BitVec.ofNat 64 q, r.count.toInt.toNat) ∈
        (st.afterRound a q behind r).touched.writes :=
      List.mem_append_right _ (List.mem_singleton.mpr rfl)
    have hcover : (⟨a, size.toInt.toNat⟩ : Span).Covers (a + BitVec.ofNat 64 q)
        r.count.toInt.toNat := by
      split at hin
      · exact hin _ hblock
      · exact hin _ hblock
    rw [covers_offset_iff a _ (by omega) (by omega)] at hcover
    omega

/-- **Replies that do not fit overflow the buffer**, if none of them is negative. -/
theorem lineFits_of_inside (hbuffer : a.toNat + 2 ^ 32 ≤ 2 ^ 64) (hheap : ∀ k, (heap k).isSome)
    (hcounts : ∀ k, 0 ≤ (replies k).count.toInt) {m : Mem} {name : List Byte} {offset : BitVec 64}
    (h : FgetsInside (.hostile heap replies) (.start m name offset) a size) :
    LineFits heap replies size := by
  have hsize := BitVec.toInt_lt (x := size)
  intro k
  induction k using Nat.strong_induction_on with
  | _ k ih =>
    intro _ hgo
    refine ⟨position_nonneg hcounts _, ?_⟩
    by_contra hout
    have hfit : ∀ j, j < k → position replies (j + 1) < size.toInt := fun j hj =>
      (ih j hj (fun i _ => hheap i) fun i hi => hgo i (hi.trans hj)).2
    obtain ⟨st, q, hk, hq, hrun⟩ := fgetsLoop_reaches hbuffer hheap hcounts
      (.start m name offset) rfl hgo fun j hj => (hfit j hj).trans (by omega)
    have hcount := hcounts k
    have hcountlt := BitVec.toInt_lt (x := (replies k).count)
    have hsucc := position_succ replies k
    have hlt : q < 2 ^ 31 := by
      cases k with
      | zero =>
        have hzero : (q : ℤ) = 0 := hq.symm
        omega
      | succ k =>
        have := hfit k (Nat.lt_succ_self k)
        omega
    obtain ⟨behind, hblock⟩ := Option.isSome_iff_exists.mp (hheap k)
    have hsome : (FileProxy.hostile heap replies).fileData st.requests.length = some behind := by
      rw [hk]
      exact hblock
    have hreply : (FileProxy.hostile heap replies).ocall st.requests.length
        (st.request 1#64 1#64 behind) = replies k := by
      rw [hk]
      rfl
    by_cases hqle : size.toInt.toNat ≤ q
    · -- an empty buffer
      obtain ⟨hin, hnul⟩ := storedIn_loop (h.stored (1 + k))
      rw [hrun] at hin hnul
      exact not_inside_at_end hbuffer hlt hqle hsome hreply hcount hin hnul
    · -- the reply fills the buffer, and the NUL or another byte is still to come
      have hq' : ((q + (replies k).count.toInt.toNat : ℕ) : ℤ) = q + (replies k).count.toInt := by
        omega
      have hround := fun n => exec_fgetsLoop_round (a := a) hsome n hreply hlt hq' (by omega)
      obtain ⟨hin, hnul⟩ := storedIn_loop (h.stored (1 + k))
      rw [hrun, hround] at hin hnul
      have hblock : (a + BitVec.ofNat 64 q, (replies k).count.toInt.toNat) ∈
          (st.afterRound a q behind (replies k)).touched.writes :=
        List.mem_append_right _ (List.mem_singleton.mpr rfl)
      have hcover : (⟨a, size.toInt.toNat⟩ : Span).Covers (a + BitVec.ofNat 64 q)
          (replies k).count.toInt.toNat := by
        split at hin
        · exact hin _ hblock
        · exact hin _ hblock
      rw [covers_offset_iff a _ (by omega) (by omega)] at hcover
      by_cases hon : (replies k).count ≠ 0#32 ∧
          (st.afterRound a q behind (replies k)).touched.mem (a + BitVec.ofNat 64 q) ≠ newline
      · obtain ⟨behind', hblock'⟩ := Option.isSome_iff_exists.mp (hheap (k + 1))
        have hlen : (st.afterRound a q behind (replies k)).requests.length = k + 1 := by
          show (st.requests ++ [_]).length = k + 1
          rw [List.length_append, hk, List.length_singleton]
        obtain ⟨hin', hnul'⟩ := storedIn_loop (h.stored (2 + k))
        rw [hrun, hround, if_pos hon] at hin' hnul'
        have hsome' : (FileProxy.hostile heap replies).fileData
            (st.afterRound a q behind (replies k)).requests.length = some behind' := by
          rw [hlen]
          exact hblock'
        have hreply' : (FileProxy.hostile heap replies).ocall
            (st.afterRound a q behind (replies k)).requests.length
            ((st.afterRound a q behind (replies k)).request 1#64 1#64 behind') =
              replies (k + 1) := by
          rw [hlen]
          rfl
        exact not_inside_at_end hbuffer (by omega) (by omega) hsome' hreply' (hcounts (k + 1)) hin'
          hnul'
      · rw [if_neg hon] at hnul
        have hcover' := hnul _ rfl
        rw [signExtend_ofNat (by omega), covers_offset_iff a _ Nat.one_pos (by omega)] at hcover'
        omega

end Overflow

/-! ### The two functions -/

/-- **Which replies keep the file functions inside the caller's buffer.**  `fread` stays inside
iff a `malloc` fails or the reply fits.  `fgets` stays inside and terminates its line if the
replies fit, whatever their signs; and iff they fit, where none is negative and `malloc`
succeeds.  The buffer of `fgets` is not at the very end of the address space. -/
theorem fileReads_inside_iff (heap : ℕ → Option Byte) (replies : ℕ → FileReply) (m : Mem)
    (name : List Byte) (offset : BitVec 64) :
    (∀ ptr size nmemb,
      FreadInside (.hostile heap replies) (.start m name offset) ptr size nmemb ↔
        heap 0 = none ∨ ReplyFits ptr size nmemb (replies 0)) ∧
    (∀ (s : Addr) (size : BitVec 32), s.toNat + size.toInt.toNat < 2 ^ 64 →
      LineFits heap replies size →
        FgetsInside (.hostile heap replies) (.start m name offset) s size) ∧
    ∀ (s : Addr) (size : BitVec 32), s.toNat + 2 ^ 32 ≤ 2 ^ 64 → (∀ k, (heap k).isSome) →
      (∀ k, 0 ≤ (replies k).count.toInt) →
        (FgetsInside (.hostile heap replies) (.start m name offset) s size ↔
          LineFits heap replies size) := by
  refine ⟨fread_inside_iff heap replies m name offset,
    fun s size hbuffer hfits => fgets_inside hfits hbuffer m name offset,
    fun s size hbuffer hheap hcounts => ⟨fun h => lineFits_of_inside hbuffer hheap hcounts h,
      fun hfits => fgets_inside hfits ?_ m name offset⟩⟩
  have hsize := BitVec.toInt_lt (x := size)
  omega

/-- Two items where one was asked for, and a line of three characters for two. -/
theorem fileReads_overflow :
    ¬ FreadInside (.hostile (fun _ => some 0) fun _ => ⟨2#32, fun _ => 65⟩)
        (.start (fun _ => 0) [] 0#64) 0x1000#64 1#64 1#64 ∧
      ¬ FgetsInside (.hostile (fun _ => some 0) fun _ => ⟨1#32, fun _ => 65⟩)
        (.start (fun _ => 0) [] 0#64) 0x1000#64 2#32 := by
  constructor
  · intro h
    have hcover : (0x1001#64 - 0x1000#64).toNat < 1 :=
      h (0x1000#64, 2) (by decide) 1 (by decide)
    exact absurd hcover (by decide)
  · intro h
    have hcover : (0x1002#64 - 0x1000#64).toNat < 2 :=
      h.stored 3 (0x1002#64, 1) (by decide) 0 (by decide)
    exact absurd hcover (by decide)

/-- A file of newlines: a line of it fits into two bytes and not into one, and an item of it
into one. -/
theorem fileReads_inside_iff_newlines :
    FreadInside (.hostile (fun _ => some 0) fun _ => ⟨1#32, fun _ => newline⟩)
        (.start (fun _ => 0) [] 0#64) 0x1000#64 1#64 1#64 ∧
      FgetsInside (.hostile (fun _ => some 0) fun _ => ⟨1#32, fun _ => newline⟩)
        (.start (fun _ => 0) [] 0#64) 0x1000#64 2#32 ∧
      ¬ FgetsInside (.hostile (fun _ => some 0) fun _ => ⟨1#32, fun _ => newline⟩)
        (.start (fun _ => 0) [] 0#64) 0x1000#64 1#32 := by
  obtain ⟨hfread, hfgets, hiff⟩ := fileReads_inside_iff (fun _ => some 0)
    (fun _ => ⟨1#32, fun _ => newline⟩) (fun _ => 0) [] 0#64
  have hfits : LineFits (fun _ => some 0) (fun _ => ⟨1#32, fun _ => newline⟩) 2#32 := by
    intro k _ hgo
    cases k with
    | zero => decide
    | succ k => exact absurd rfl ((hgo 0 (Nat.succ_pos k)).2 (by decide))
  refine ⟨(hfread 0x1000#64 1#64 1#64).2 (.inr (.inl (by decide))),
    hfgets 0x1000#64 2#32 (by decide) hfits, fun hin => ?_⟩
  have hone := (hiff 0x1000#64 1#32 (by decide) (fun _ => rfl) fun _ => by decide).1 hin
  exact absurd (hone 0 (fun _ _ => rfl) nofun).2 (by decide)

end KeystoneSdk
