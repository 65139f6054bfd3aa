/-
The calls of the allocator, and what every one of them does to a heap.

* `HeapCall`, `HeapCall.run` — the eight functions as calls with their arguments;
* `HeapCall.live` — the pieces the caller holds afterwards;
* `HeapCall.Valid` — pointers are null or held, and no size computation wraps;
* `Outcome` — what the caller may rely on afterwards, and what the call does to the
  headers and the end of the heap;
* **`call_spec`** — every valid call on a heap returns, with this outcome.
-/
import KeystoneSdk.HeapAlign
import KeystoneSdk.HeapRealloc

open ByteMemory BlockHeap

namespace KeystoneSdk

/-- A call of the allocator. -/
inductive HeapCall
  | malloc (sz : BitVec 64)
  | calloc (n elemSize : BitVec 64)
  | realloc (p : Addr) (sz : BitVec 64)
  | memalign (align sz : BitVec 64)
  | valloc (sz : BitVec 64)
  | pvalloc (sz : BitVec 64)
  | free (p : Addr)
  | cfree (p : Addr)
  deriving DecidableEq

namespace HeapCall

variable {σ : Type}

/-- The call itself; `free` and `cfree` return nothing, here null. -/
def run (start : MallocStart) (sBrk : SBrk σ) (frame : Addr) :
    HeapCall → TinyMalloc σ → Option (Addr × TinyMalloc σ)
  | malloc sz => TinyMalloc.malloc start sBrk frame sz
  | calloc n elemSize => TinyMalloc.calloc start sBrk frame n elemSize
  | realloc p sz => TinyMalloc.realloc start sBrk frame p sz
  | memalign align sz => TinyMalloc.memalign frame align sz
  | valloc sz => TinyMalloc.valloc frame sz
  | pvalloc sz => TinyMalloc.pvalloc frame sz
  | free p => fun s => (TinyMalloc.free p s).map fun s => (0#64, s)
  | cfree p => fun s => (TinyMalloc.cfree p s).map fun s => (0#64, s)

/-- The number of bytes asked for; `pvalloc` rounds it up to 128. -/
def request : HeapCall → ℕ
  | malloc sz => sz.toNat
  | calloc n elemSize => n.toNat * elemSize.toNat
  | realloc _ sz => sz.toNat
  | memalign _ sz => sz.toNat
  | valloc sz => sz.toNat
  | pvalloc sz => sz.toNat + (TinyMalloc.mAlign sz 128#64).toNat
  | free _ => 0
  | cfree _ => 0

/-- The pointer a call that returned `result` has taken from the caller. -/
def released (result : Addr) : HeapCall → Addr
  | realloc p _ => if result = 0#64 then 0#64 else p
  | free p => p
  | cfree p => p
  | _ => 0#64

/-- The pieces the caller holds after a call that returned `result`. -/
def live (c : HeapCall) (result : Addr) (held : List Chunk) : List Chunk :=
  (if result = 0#64 then [] else [⟨result, c.request⟩]) ++
    held.filter fun q => q.ptr ≠ c.released result

/-- The arguments of `memalign` in a call that ends in it. -/
def aligned : HeapCall → Option (BitVec 64 × BitVec 64)
  | memalign align sz => some (align, sz)
  | valloc sz => some (128#64, sz)
  | pvalloc sz => some (128#64, sz + TinyMalloc.mAlign sz 128#64)
  | _ => none

end HeapCall

namespace TinyMalloc

variable {σ : Type}

/-- A pointer a caller may pass. -/
def Passable (held : List Chunk) (p : Addr) : Prop := p = 0#64 ∨ ∃ q ∈ held, q.ptr = p

/-- `REAL_SIZE(sz)` does not wrap. -/
def SizeFits (sz : BitVec 64) : Prop := sz.toNat + 8 + (mAlign sz 8#64).toNat < 2 ^ 64

/-- No sum that `memalign` forms wraps. -/
def SumsFit (start : MallocStart) (frame : Addr) (align sz : BitVec 64) (s : TinyMalloc σ) : Prop :=
  SizeFits sz ∧ (badAlign align = false → ∀ bs, Represents start s bs →
    Unwrapped s frame align (requestSize sz.toNat) start.base bs)

/-- Every pointer passed is null or held, and no size computation wraps. -/
def Valid (start : MallocStart) (frame : Addr) (s : TinyMalloc σ) (held : List Chunk) :
    HeapCall → Prop
  | .malloc sz => SizeFits sz
  | .calloc n elemSize => n.toNat * elemSize.toNat < 2 ^ 64 ∧ SizeFits (n * elemSize)
  | .realloc p sz => Passable held p ∧ SizeFits sz
  | .memalign align sz => SumsFit start frame align sz s
  | .valloc sz => SumsFit start frame 128#64 sz s
  | .pvalloc sz => sz.toNat + (mAlign sz 128#64).toNat < 2 ^ 64 ∧
      SumsFit start frame 128#64 (sz + mAlign sz 128#64) s
  | .free p => Passable held p
  | .cfree p => Passable held p

theorem sizeFits_iff {sz : BitVec 64} : SizeFits sz ↔ sz.toNat + 16 ≤ 2 ^ 64 := by
  have hlt := sz.isLt
  have halign := mAlign_toNat sz (k := 3) (by decide)
  unfold SizeFits
  rw [show mAlign sz 8#64 = mAlign sz (BitVec.ofNat 64 (2 ^ 3)) from rfl, halign]
  omega

/-- What the caller sees of a call: the pieces it still holds have their bytes, a piece
that was moved starts as before, and `calloc` fills with zeros. -/
structure Preserves (c : HeapCall) (result : Addr) (s s' : TinyMalloc σ) (held : List Chunk) :
    Prop where
  kept : ∀ q ∈ held, q.ptr ≠ c.released result → q.bytes s'.mem = q.bytes s.mem
  moved : ∀ p sz, c = .realloc p sz → result ≠ 0#64 → ∀ q ∈ held, q.ptr = p →
    readBytes s'.mem result (min q.request sz.toNat) =
      readBytes s.mem p (min q.request sz.toNat)
  zeros : ∀ n elemSize, c = .calloc n elemSize → result ≠ 0#64 →
    readBytes s'.mem result (n.toNat * elemSize.toNat) =
      List.replicate (n.toNat * elemSize.toNat) 0

/-- What a call that ends in `memalign` does to headers and to the end of the heap `bs`. -/
structure AlignEffects (start : MallocStart) (frame : Addr) (align sz : BitVec 64)
    (bs : List Block) (s s' : TinyMalloc σ) : Prop where
  writes : Writes s s' s'.mallocEnd.toNat
  top : s'.mallocEnd = s.mallocEnd ∨
    ∃ e, GrowsTo start s bs align (requestSize sz.toNat) frame e ∧ s'.mallocEnd.toNat ≤ e

/-- The outcome of a call on the heap `bs`, when the caller holds `held`. -/
structure Outcome (start : MallocStart) (sBrk : SBrk σ) (frame : Addr) (c : HeapCall)
    (bs : List Block) (held : List Chunk) (s : TinyMalloc σ) (result : Addr)
    (s' : TinyMalloc σ) : Prop where
  heap : ∃ bs', Represents start s' bs' ∧ (chunks start.base bs').Perm (c.live result held)
  preserves : Preserves c result s s' held
  aligned : ∀ align sz, c.aligned = some (align, sz) → align.toNat ∣ result.toNat
  effects : match c.aligned with
    | none => Effects sBrk s s'
    | some (align, sz) => AlignEffects start frame align sz bs s s'

/-! ### Every call has its outcome -/

section Calls

variable {start : MallocStart} {sBrk : SBrk σ} {frame : Addr} {s s' : TinyMalloc σ}
  {bs bs' : List Block} {held others : List Chunk} {c : HeapCall} {p : Addr}

/-- No piece is at the null pointer. -/
theorem held_nonnull (h : Represents start s bs) (hl : (chunks start.base bs).Perm held) {q : Chunk}
    (hq : q ∈ held) : q.ptr ≠ 0#64 := by
  intro hzero
  have hbounds := (h.chunk_bounds (hl.mem_iff.2 hq)).1
  rw [hzero] at hbounds
  exact absurd hbounds (Nat.not_le_of_gt (by show 0 < _; omega))

theorem filter_null (h : Represents start s bs) (hl : (chunks start.base bs).Perm held) :
    (held.filter fun q => q.ptr ≠ 0#64) = held :=
  List.filter_eq_self.2 fun _ hq => decide_eq_true (held_nonnull h hl hq)

/-- The pieces besides the one at `p`. -/
theorem filter_others {pre post : List Block} {size n : ℕ}
    (h : Represents start s (pre ++ ⟨size, some n⟩ :: post))
    (hl : (chunks start.base (pre ++ ⟨size, some n⟩ :: post)).Perm held) :
    (chunks start.base pre ++ chunks (start.base + total pre + size) post).Perm
      (held.filter fun q => q.ptr ≠ BitVec.ofNat 64 (start.base + total pre + 8)) := by
  have hused := chunks_used start pre post size n
  have hnodup : (chunks start.base (pre ++ ⟨size, some n⟩ :: post)).Nodup := by
    refine (chunks_sorted h.row.ok h.lt).imp fun {c d} hlt heq => ?_
    rw [heq] at hlt
    omega
  have hnew := (List.nodup_cons.1 (hused.nodup_iff.1 hnodup)).1
  have hfilter := (hused.symm.trans hl).filter fun q : Chunk =>
    decide (q.ptr ≠ BitVec.ofNat 64 (start.base + total pre + 8))
  rw [List.filter_cons_of_neg (by simp)] at hfilter
  refine List.Perm.trans ?_ hfilter
  rw [List.filter_eq_self.2]
  intro q hq
  refine decide_eq_true fun hptr => ?_
  have hsame := h.chunk_eq (hused.mem_iff.2 List.mem_cons_self)
    (hused.mem_iff.2 (List.mem_cons_of_mem _ hq)) hptr
  exact hnew (hsame ▸ hq)

/-- A call that gives a piece. -/
theorem Gives.live {n : ℕ} (h : Gives start s s' bs' others p n) (hn : c.request = n)
    (ho : others.Perm (held.filter fun q => q.ptr ≠ c.released p)) :
    ∃ bs', Represents start s' bs' ∧ (BlockHeap.chunks start.base bs').Perm (c.live p held) := by
  refine ⟨bs', h.represents, h.chunks.trans ?_⟩
  unfold HeapCall.live
  rw [if_neg h.ne_zero, hn]
  exact ho.cons _

/-- A call that is refused. -/
theorem refused_live (h : Represents start s bs) (hl : (chunks start.base bs).Perm held)
    (hc : c.released 0#64 = 0#64) :
    ∃ bs', Represents start s bs' ∧ (chunks start.base bs').Perm (c.live 0#64 held) := by
  refine ⟨bs, h, ?_⟩
  unfold HeapCall.live
  rw [if_pos rfl, hc, filter_null h hl]
  exact hl

theorem refused_preserves : Preserves c 0#64 s s held :=
  ⟨fun _ _ _ => rfl, fun _ _ _ hne => absurd rfl hne, fun _ _ _ hne => absurd rfl hne⟩

/-- A refused call that does not end in `memalign`. -/
theorem refused_outcome (h : Represents start s bs) (hl : (chunks start.base bs).Perm held)
    (hc : c.released 0#64 = 0#64) (ha : c.aligned = none) :
    Outcome start sBrk frame c bs held s 0#64 s := by
  refine ⟨refused_live h hl hc, refused_preserves, fun align sz heq => ?_, ?_⟩
  · rw [ha] at heq
    exact absurd heq (Option.some_ne_none _).symm
  · rw [ha]
    exact Effects.refl s

/-- `malloc`, and `realloc` of the null pointer. -/
theorem malloc_outcome {sz : BitVec 64} (h : Represents start s bs)
    (hl : (chunks start.base bs).Perm held) (hsz : sz.toNat + 16 ≤ 2 ^ 64)
    (hframe : s.mallocEnd.toNat + 32 ≤ frame.toNat) (hc : c = .malloc sz ∨ c = .realloc 0#64 sz) :
    ∃ p s', c.run start sBrk frame s = some (p, s') ∧
      Outcome start sBrk frame c bs held s p s' := by
  have hroom := room_of_frame hframe (requestSize_lt hsz)
  obtain ⟨⟨p, s'⟩, hrun, hresult⟩ := @malloc_spec _ _ sBrk _ _ _ _ h hsz hroom
  have hrun' : c.run start sBrk frame s = some (p, s') := by
    rcases hc with rfl | rfl
    · exact hrun
    · show realloc start sBrk frame 0#64 sz s = _
      simp [realloc, hrun]
  have hrel : c.released p = 0#64 := by
    rcases hc with rfl | rfl
    · rfl
    · exact ite_self _
  have ha : c.aligned = none := by
    rcases hc with rfl | rfl
    · rfl
    · rfl
  refine ⟨p, s', hrun', ?_⟩
  -- null and nothing changed, or one piece more
  rcases hresult with hnull | ⟨bs', halloc⟩
  · obtain ⟨rfl, rfl⟩ := Prod.mk.inj hnull
    exact refused_outcome h hl hrel ha
  · have hgives := halloc.toHanded.gives h
    refine ⟨hgives.live ?_ ?_, ⟨fun q hq _ => ?_, fun a n heq _ q hq hptr => ?_, fun n e heq => ?_⟩,
      fun align n heq => ?_, ?_⟩
    · rcases hc with rfl | rfl
      · rfl
      · rfl
    · rw [hrel, filter_null h hl]
      exact hl
    · exact hgives.kept q (hl.mem_iff.2 hq)
    · rcases hc with rfl | rfl
      · exact absurd heq (by simp)
      · obtain ⟨rfl, -⟩ := HeapCall.realloc.inj heq
        exact absurd hptr (held_nonnull h hl hq)
    · rcases hc with rfl | rfl
      · exact absurd heq (by simp)
      · exact absurd heq (by simp)
    · rw [ha] at heq
      exact absurd heq (Option.some_ne_none _).symm
    · rw [ha]
      exact halloc.effects

theorem calloc_outcome {n elemSize : BitVec 64} (h : Represents start s bs)
    (hl : (chunks start.base bs).Perm held) (hprod : n.toNat * elemSize.toNat < 2 ^ 64)
    (hsz : (n * elemSize).toNat + 16 ≤ 2 ^ 64) (hframe : s.mallocEnd.toNat + 32 ≤ frame.toNat) :
    ∃ p s', calloc start sBrk frame n elemSize s = some (p, s') ∧
      Outcome start sBrk frame (.calloc n elemSize) bs held s p s' := by
  have hroom := room_of_frame hframe (requestSize_lt hsz)
  obtain ⟨⟨p, s'⟩, hrun, hresult⟩ := @calloc_spec _ _ sBrk _ _ _ _ _ h hsz hroom
  have hmul : (n * elemSize).toNat = n.toNat * elemSize.toNat := by
    rw [BitVec.toNat_mul, Nat.mod_eq_of_lt hprod]
  refine ⟨p, s', hrun, ?_⟩
  rcases hresult with hnull | ⟨bs', hgives, heffects, hzeros⟩
  · obtain ⟨rfl, rfl⟩ := Prod.mk.inj hnull
    exact refused_outcome h hl rfl rfl
  · refine ⟨hgives.live hmul.symm ?_, ⟨fun q hq _ => ?_, nofun, fun n' e' heq _ => ?_⟩, nofun,
      heffects⟩
    · rw [show HeapCall.released p (.calloc n elemSize) = 0#64 from rfl, filter_null h hl]
      exact hl
    · exact hgives.kept q (hl.mem_iff.2 hq)
    · obtain ⟨rfl, rfl⟩ := HeapCall.calloc.inj heq
      rw [← hmul]
      exact hzeros

theorem realloc_outcome {sz : BitVec 64} (h : Represents start s bs)
    (hl : (chunks start.base bs).Perm held) (hsz : sz.toNat + 16 ≤ 2 ^ 64)
    (hframe : s.mallocEnd.toNat + 32 ≤ frame.toNat) {q : Chunk} (hq : q ∈ held) :
    ∃ p s', realloc start sBrk frame q.ptr sz s = some (p, s') ∧
      Outcome start sBrk frame (.realloc q.ptr sz) bs held s p s' := by
  have hroom := room_of_frame hframe (requestSize_lt hsz)
  obtain ⟨pre, size, post, rfl, hptr⟩ := exists_block_of_mem_chunks (hl.mem_iff.2 hq)
  obtain ⟨⟨p, s'⟩, hrun, hresult⟩ := @realloc_spec _ _ sBrk _ _ _ _ _ _ _ h hsz hroom
  rw [← hptr] at hrun hresult
  refine ⟨p, s', hrun, ?_⟩
  rcases hresult with hnull | hmoved
  · obtain ⟨rfl, rfl⟩ := Prod.mk.inj hnull
    exact refused_outcome h hl rfl rfl
  · obtain ⟨bs', hgives⟩ := hmoved.gives
    have hrel : HeapCall.released p (.realloc q.ptr sz) = q.ptr := if_neg hgives.ne_zero
    have ho := filter_others h hl
    rw [← hptr] at ho
    refine ⟨hgives.live rfl ?_, ⟨fun d hd hne => ?_, fun a n heq _ d hd hda => ?_, nofun⟩, nofun,
      hmoved.effects⟩
    · rw [hrel]
      exact ho
    · rw [hrel] at hne
      exact hgives.kept d (ho.mem_iff.2 (List.mem_filter.2 ⟨hd, decide_eq_true hne⟩))
    · obtain ⟨rfl, rfl⟩ := HeapCall.realloc.inj heq
      obtain rfl := h.chunk_eq (hl.mem_iff.2 hq) (hl.mem_iff.2 hd) hda
      exact hmoved.bytes

theorem free_outcome (h : Represents start s bs) (hl : (chunks start.base bs).Perm held)
    {q : Chunk} (hq : q ∈ held) (hc : c = .free q.ptr ∨ c = .cfree q.ptr) :
    ∃ s', free q.ptr s = some s' ∧ Outcome start sBrk frame c bs held s 0#64 s' := by
  obtain ⟨pre, size, post, rfl, hptr⟩ := exists_block_of_mem_chunks (hl.mem_iff.2 hq)
  obtain ⟨s', bs', hrun, hfreed⟩ := free_spec h
  rw [← hptr] at hrun
  have ho := filter_others h hl
  rw [← hptr] at ho
  have hrel : c.released 0#64 = q.ptr := by
    rcases hc with rfl | rfl
    · rfl
    · rfl
  refine ⟨s', hrun, ⟨bs', hfreed.represents, ?_⟩, ⟨fun d hd hne => ?_, ?_, ?_⟩, ?_, ?_⟩
  · unfold HeapCall.live
    rw [if_pos rfl, hrel, hfreed.chunks]
    exact ho
  · rw [hrel] at hne
    refine hfreed.bytes h ?_
    rw [hfreed.chunks]
    exact ho.mem_iff.2 (List.mem_filter.2 ⟨hd, decide_eq_true hne⟩)
  · exact fun _ _ _ hne => absurd rfl hne
  · exact fun _ _ _ hne => absurd rfl hne
  · exact fun _ _ _ => dvd_zero _
  · rcases hc with rfl | rfl
    · exact Effects.of_writes hfreed.writes hfreed.top
    · exact Effects.of_writes hfreed.writes hfreed.top

/-- A call that ends in `memalign`. -/
theorem memalign_outcome {align sz : BitVec 64} (h : Represents start s bs)
    (hl : (chunks start.base bs).Perm held) (hv : SumsFit start frame align sz s)
    (hroom : s.mallocEnd.toNat + 32 ≤ frame.toNat) (hc : c.aligned = some (align, sz))
    (hreq : c.request = sz.toNat) :
    ∃ p s', memalign frame align sz s = some (p, s') ∧
      Outcome start sBrk frame c bs held s p s' := by
  have hrel : ∀ r, c.released r = 0#64 := by
    intro r
    cases c <;> first | rfl | exact absurd hc (Option.some_ne_none _).symm
  have hmoved : ∀ p n, c ≠ .realloc p n := by
    rintro p n rfl
    exact absurd hc (Option.some_ne_none _).symm
  have hzeros : ∀ n e, c ≠ .calloc n e := by
    rintro n e rfl
    exact absurd hc (Option.some_ne_none _).symm
  -- refused, with the heap as it was
  have hrefused : Outcome start sBrk frame c bs held s 0#64 s := by
    refine ⟨refused_live h hl (hrel _), refused_preserves, fun _ _ _ => dvd_zero _, ?_⟩
    rw [hc]
    exact ⟨Writes.refl s _, .inl rfl⟩
  cases hbad : badAlign align with
  | true =>
    refine ⟨0#64, s, ?_, hrefused⟩
    unfold memalign
    rw [if_pos hbad]
  | false =>
    obtain ⟨k, hk, halign⟩ := badAlign_eq_false.1 hbad
    have hpow : align.toNat = 2 ^ k := by
      rw [halign, BitVec.toNat_ofNat, Nat.mod_eq_of_lt (Nat.pow_lt_pow_right (by omega) hk)]
    obtain ⟨⟨p, s'⟩, hrun, hresult⟩ :=
      memalign_spec hk halign h (sizeFits_iff.1 hv.1) (hv.2 hbad bs h) (.inl hroom)
    refine ⟨p, s', hrun, ?_⟩
    have hkept : Kept s.mem s'.mem start.base bs → Preserves c p s s' held := fun hkept =>
      ⟨fun q hq _ => hkept.bytes h.row.ok (hl.mem_iff.2 hq), fun a n heq => absurd heq (hmoved a n),
        fun n e heq => absurd heq (hzeros n e)⟩
    cases hresult with
    | refused hnull hlate =>
      obtain ⟨rfl, rfl⟩ := Prod.mk.inj hnull
      exact hrefused
    | late hlate hnull hrow hsame hwrites =>
      obtain rfl : p = 0#64 := hnull
      have hbelow := hrow.top_toNat
      have hshort := hlate.short
      simp only [total_append, total_cons, total_nil] at hbelow
      refine ⟨⟨_, hrow, ?_⟩, hkept hsame, fun _ _ _ => dvd_zero _, ?_⟩
      · unfold HeapCall.live
        rw [if_pos rfl, hrel, List.nil_append, filter_null h hl, chunks_append]
        simpa [chunks] using hl
      · rw [hc]
        refine ⟨hwrites, .inr ⟨_, ⟨hlate.noFit, .inr ⟨hlate.last, hlate.first, rfl⟩⟩, ?_⟩⟩
        rw [hbelow]
        omega
    | handed bs' hhanded hlate haligned hwrites htop =>
      refine ⟨(hhanded.gives h).live hreq ?_, hkept hhanded.kept, ?_, ?_⟩
      · rw [hrel, filter_null h hl]
        exact hl
      · intro a n heq
        rw [hc] at heq
        obtain ⟨rfl, rfl⟩ := Prod.mk.inj (Option.some.inj heq)
        rw [hpow]
        exact haligned
      · rw [hc]
        refine ⟨hwrites, htop.imp_right ?_⟩
        rintro ⟨e, hgrows, hend, -⟩
        exact ⟨e, hgrows, hend.le⟩

theorem free_null (s : TinyMalloc σ) : free 0#64 s = some s := by
  simp [free]

/-- **Every valid call on a heap returns, with its outcome.** -/
theorem call_spec (sBrk : SBrk σ) (h : Represents start s bs)
    (hl : (chunks start.base bs).Perm held) (hv : Valid start frame s held c)
    (hframe : s.mallocEnd.toNat + 32 ≤ frame.toNat) :
    ∃ p s', c.run start sBrk frame s = some (p, s') ∧
      Outcome start sBrk frame c bs held s p s' := by
  -- giving back a pointer that may be null
  have hfree : ∀ p, Passable held p → c = .free p ∨ c = .cfree p →
      ∃ s', free p s = some s' ∧ Outcome start sBrk frame c bs held s 0#64 s' := by
    rintro p (rfl | ⟨q, hq, rfl⟩) hc
    · refine ⟨s, free_null s, ?_⟩
      rcases hc with rfl | rfl
      · exact refused_outcome h hl rfl rfl
      · exact refused_outcome h hl rfl rfl
    · exact free_outcome h hl hq hc
  cases c with
  | malloc sz => exact malloc_outcome h hl (sizeFits_iff.1 hv) hframe (.inl rfl)
  | calloc n elemSize => exact calloc_outcome h hl hv.1 (sizeFits_iff.1 hv.2) hframe
  | realloc p sz =>
    obtain ⟨hp, hsz⟩ := hv
    rcases hp with rfl | ⟨q, hq, rfl⟩
    · exact malloc_outcome h hl (sizeFits_iff.1 hsz) hframe (.inr rfl)
    · exact realloc_outcome h hl (sizeFits_iff.1 hsz) hframe hq
  | memalign align sz => exact memalign_outcome h hl hv hframe rfl rfl
  | valloc sz => exact memalign_outcome h hl hv hframe rfl rfl
  | pvalloc sz =>
    refine memalign_outcome h hl hv.2 hframe rfl ?_
    rw [BitVec.toNat_add, Nat.mod_eq_of_lt hv.1]
    rfl
  | free p =>
    obtain ⟨s', hrun, hout⟩ := hfree p hv (.inl rfl)
    refine ⟨0#64, s', ?_, hout⟩
    show (free p s).map _ = _
    rw [hrun]
    rfl
  | cfree p =>
    obtain ⟨s', hrun, hout⟩ := hfree p hv (.inr rfl)
    refine ⟨0#64, s', ?_, hout⟩
    show (free p s).map _ = _
    rw [hrun]
    rfl

end Calls

end TinyMalloc

end KeystoneSdk
