/-
The program break and the heap.

`malloc` calls `check_range_and_call_sbrk` before it returns, `memalign` does not, and
only `malloc` sets `__malloc_end`.

* `Started` — the state a program starts in;
* `BelowBreak` — pieces lie above `__malloc_start` and below the break, and headers
  were written below the break of their time;
* `AlignUse`, `BreakUse` — the calls of `memalign` that need nothing from the break;
* **`below_break`** — with those calls only, `BelowBreak` holds in every run;
* `memalign_not_below_break` — two runs with other calls, where it does not.
-/
import KeystoneSdk.HeapRuns

open ByteMemory BlockHeap

namespace KeystoneSdk

namespace TinyMalloc

/-- The state a program starts in: nothing is allocated, and the break is at or above
`&__malloc_start + 8`. -/
structure Started (start : MallocStart) (s : TinyMalloc (BitVec 64)) : Prop where
  fresh : Fresh s
  headers : s.headers = []
  break_above : start.base + 8 ≤ s.sys.toNat

/-- Every word of a header was written below the break, and every piece held lies above
`&__malloc_start` and below the break. -/
structure BelowBreak (start : MallocStart) (s : TinyMalloc (BitVec 64)) (held : List Chunk) :
    Prop where
  headers : ∀ e ∈ s.headers, e.1.toNat + 8 ≤ e.2.toNat
  pieces : ∀ q ∈ held, start.base < q.ptr.toNat ∧ q.ptr.toNat + q.request ≤ s.sys.toNat

/-- A call of `memalign` that is refused before it does anything, or does not make the
heap reach the break. -/
def AlignUse (start : MallocStart) (s : TinyMalloc (BitVec 64)) (frame : Addr)
    (align sz : BitVec 64) : Prop :=
  badAlign align = true ∨
  (s.mallocEnd = 0#64 ∧
    s.canAlloc frame (realSize sz + mAlign (s.mallocEnd + 8#64) align) = false) ∨
  (s.mallocEnd ≠ 0#64 ∧ ∀ bs, Represents start s bs →
    ∀ e, GrowsTo start s bs align (requestSize sz.toNat) frame e → e + 8 ≤ s.sys.toNat)

/-- Valid use, from the first call on. -/
structure AnyUse (start : MallocStart) (s : TinyMalloc (BitVec 64)) (held : List Chunk)
    (frame : Addr) (c : HeapCall) : Prop where
  valid : Valid start frame s held c
  above : FrameAbove start s frame

/-- Valid use that calls `memalign` only as above. -/
structure BreakUse (start : MallocStart) (s : TinyMalloc (BitVec 64)) (held : List Chunk)
    (frame : Addr) (c : HeapCall) : Prop extends AnyUse start s held frame c where
  align : ∀ align sz, c.aligned = some (align, sz) → AlignUse start s frame align sz

/-! ### The break is ahead of the heap -/

section Break

variable {start : MallocStart} {s s' : TinyMalloc (BitVec 64)} {bs : List Block}
  {held : List Chunk} {frame : Addr} {c : HeapCall} {p : Addr}

/-- `check_range_and_call_sbrk` raises the break to the end of its range. -/
theorem checkedSys_raiseBreak {r : ℕ} (cur : BitVec 64) (h : p.toNat + r < 2 ^ 64) :
    (checkedSys raiseBreak cur p (BitVec.ofNat 64 r)).toNat = max cur.toNat (p.toNat + r) := by
  have hend : (p + BitVec.ofNat 64 r).toNat = p.toNat + r := by
    rw [BitVec.toNat_add, BitVec.toNat_ofNat, Nat.add_mod_mod, Nat.mod_eq_of_lt h]
  have hlt : cur + 0#64 < p + BitVec.ofNat 64 r ↔ cur.toNat < p.toNat + r := by
    rw [BitVec.add_zero, BitVec.lt_def, hend]
  have hcur : checkedSys raiseBreak cur p (BitVec.ofNat 64 r) =
      if cur < p + BitVec.ofNat 64 r then
        cur + 0#64 + (p + BitVec.ofNat 64 r - cur) else cur + 0#64 := rfl
  rw [BitVec.add_zero] at hlt hcur
  rw [hcur]
  by_cases hless : cur.toNat < p.toNat + r
  · rw [if_pos (hlt.2 hless), BitVec.add_comm, BitVec.sub_add_cancel, hend, max_eq_right hless.le]
  · rw [if_neg fun h' => hless (hlt.1 h'), max_eq_left (Nat.not_lt.1 hless)]

/-- The headers were written below the break, and the break is ahead of the end of the
heap by the space of a header. -/
structure Ahead (s : TinyMalloc (BitVec 64)) : Prop where
  headers : ∀ e ∈ s.headers, e.1.toNat + 8 ≤ e.2.toNat
  ahead : s.mallocEnd.toNat + 8 ≤ s.sys.toNat

/-- `malloc`, `calloc`, `realloc` and `free` keep the break ahead. -/
theorem Effects.ahead (h : Effects raiseBreak s s') (ha : Ahead s) : Ahead s' := by
  have hahead := ha.ahead
  have hlater : s'.mallocEnd.toNat + 8 ≤ s'.sys.toNat := by
    rcases h.sys with ⟨hsys, htop⟩ | ⟨p, r, hsys, htop, hlt⟩
    · rw [hsys, htop]
      exact hahead
    · rw [hsys, checkedSys_raiseBreak _ hlt]
      omega
  refine ⟨fun e he => ?_, hlater⟩
  rcases h.log e he with he | ⟨hsys, hle⟩ | ⟨hsys, hle⟩
  · exact ha.headers e he
  · rw [hsys]
    omega
  · rw [hsys]
    omega

/-- `memalign` keeps the break ahead as long as the heap does not come near it. -/
theorem AlignEffects.ahead {align sz : BitVec 64} (h : AlignEffects start frame align sz bs s s')
    (ha : Ahead s)
    (hgrows : ∀ e, GrowsTo start s bs align (requestSize sz.toNat) frame e → e + 8 ≤ s.sys.toNat) :
    Ahead s' := by
  have hahead := ha.ahead
  have hlater : s'.mallocEnd.toNat + 8 ≤ s.sys.toNat := by
    rcases h.top with htop | ⟨e, he, hle⟩
    · rw [htop]
      exact hahead
    · have := hgrows e he
      omega
  refine ⟨fun e he => ?_, ?_⟩
  · rcases h.writes.log e he with he | ⟨hsys, hle⟩
    · exact ha.headers e he
    · rw [hsys]
      omega
  · rw [h.writes.sys]
    exact hlater

/-- `memalign` needs at most the alignment and a header more than its block. -/
theorem Represents.growsTo_lt {k r e : ℕ} (h : Represents start s bs) (hk : k < 64)
    (hgrows : GrowsTo start s bs (BitVec.ofNat 64 (2 ^ k)) r frame e) :
    e < s.mallocEnd.toNat + 2 ^ k + 16 + r := by
  have htop := h.top_toNat
  rcases hgrows with ⟨-, ⟨pre, size, rfl, -, rfl⟩ | ⟨-, -, rfl⟩⟩
  · have hgap := gapAt_lt (start.base + total pre) hk
    rw [total_append] at htop
    omega
  · have hgap := gapAt_lt (start.base + total bs) hk
    omega

/-- A state of a run that keeps the break ahead. -/
inductive BreakState (start : MallocStart) (s : TinyMalloc (BitVec 64)) (held : List Chunk) : Prop
  | fresh (h : Fresh s) (hheld : held = []) (hheaders : ∀ e ∈ s.headers, e.1.toNat + 8 ≤ e.2.toNat)
      (hbreak : start.base + 8 ≤ s.sys.toNat)
  | heap (bs : List Block) (h : Represents start s bs) (hl : (chunks start.base bs).Perm held)
      (ha : Ahead s)

theorem BreakState.below (h : BreakState start s held) : BelowBreak start s held := by
  cases h with
  | fresh h hheld hheaders hbreak =>
    refine ⟨hheaders, fun q hq => ?_⟩
    rw [hheld] at hq
    exact absurd hq List.not_mem_nil
  | heap bs h hl ha =>
    refine ⟨ha.headers, fun q hq => ?_⟩
    have hbounds := h.chunk_bounds (hl.mem_iff.2 hq)
    have hahead := ha.ahead
    omega

theorem calloc_initEnd (n elemSize : BitVec 64) :
    calloc start raiseBreak frame n elemSize (s.initEnd start) =
      calloc start raiseBreak frame n elemSize s := by
  simp only [calloc, malloc_initEnd]

theorem realloc_initEnd (sz : BitVec 64) :
    realloc start raiseBreak frame 0#64 sz (s.initEnd start) =
      realloc start raiseBreak frame 0#64 sz s := by
  simp only [realloc, if_true]
  exact malloc_initEnd sz

theorem memalign_bad {align sz : BitVec 64} (h : badAlign align = true) :
    memalign frame align sz s = some (0#64, s) := by
  unfold memalign
  rw [if_pos h]

/-- `memalign` before any `malloc`, refused at once. -/
theorem memalign_fresh {align sz : BitVec 64} (h : Fresh s)
    (hcan : s.canAlloc frame (realSize sz + mAlign (s.mallocEnd + 8#64) align) = false) :
    memalign frame align sz s = some (0#64, s) := by
  unfold memalign
  cases badAlign align with
  | true => rfl
  | false =>
    rw [if_neg Bool.false_ne_true, show pointerRounds = 18446744073709551615 + 1 from rfl,
      memalignLoop,
      if_pos (show s.deref .freelist = 0#64 from h.2)]
    dsimp only
    rw [hcan]
    rfl

/-- A first call that begins as `malloc` does. -/
theorem fresh_call (h : Fresh s) (hheaders : ∀ e ∈ s.headers, e.1.toNat + 8 ≤ e.2.toNat)
    (hbreak : start.base + 8 ≤ s.sys.toNat) (hframe : FrameAbove start s frame)
    (hv : Valid start frame (s.initEnd start) [] c) (ha : c.aligned = none)
    (hinit : c.run start raiseBreak frame (s.initEnd start) = c.run start raiseBreak frame s)
    (hrun : c.run start raiseBreak frame s = some (p, s')) : BreakState start s' (c.live p []) := by
  obtain ⟨hrep, habove⟩ := h.represents hframe
  obtain ⟨q, s'', hrun', hout⟩ := call_spec raiseBreak hrep List.Perm.nil hv habove
  obtain ⟨rfl, rfl⟩ := Prod.mk.inj (Option.some.inj (hrun.symm.trans (hinit.symm.trans hrun')))
  obtain ⟨bs, hrep', hl⟩ := hout.heap
  have heffects := hout.effects
  rw [ha] at heffects
  have hend : s.initEnd start = { s with mallocEnd := start.addr } := if_pos h.1
  have hahead : Ahead (s.initEnd start) := by
    rw [hend]
    exact ⟨hheaders, hbreak⟩
  exact .heap bs hrep' hl (heffects.ahead hahead)

/-- A call on a heap. -/
theorem heap_call (h : Represents start s bs) (hl : (chunks start.base bs).Perm held)
    (ha : Ahead s) (hok : BreakUse start s held frame c)
    (hrun : c.run start raiseBreak frame s = some (p, s')) : BreakState start s' (c.live p held) := by
  have habove : s.mallocEnd.toNat + 32 ≤ frame.toNat := by
    have hframe : (s.initEnd start).mallocEnd.toNat + 32 ≤ frame.toNat := hok.above
    rwa [h.initEnd] at hframe
  obtain ⟨q, s'', hrun', hout⟩ := call_spec raiseBreak h hl hok.valid habove
  obtain ⟨rfl, rfl⟩ := Prod.mk.inj (Option.some.inj (hrun.symm.trans hrun'))
  obtain ⟨bs', hrep', hl'⟩ := hout.heap
  have heffects := hout.effects
  cases haligned : c.aligned with
  | none =>
    rw [haligned] at heffects
    exact .heap bs' hrep' hl' (heffects.ahead ha)
  | some args =>
    obtain ⟨align, sz⟩ := args
    rw [haligned] at heffects
    have hnonnull : s.mallocEnd ≠ 0#64 := by
      intro hzero
      have htop := h.top_toNat
      have hpos := start.base_pos
      rw [hzero] at htop
      exact absurd htop (by show 0 ≠ _; omega)
    rcases hok.align align sz haligned with hbad | ⟨hzero, -⟩ | ⟨-, hgrows⟩
    · -- the call returned at once
      have hsame : c.run start raiseBreak frame s = some (0#64, s) := by
        cases c with
        | memalign a n =>
          obtain ⟨rfl, rfl⟩ := Prod.mk.inj (Option.some.inj haligned)
          exact memalign_bad hbad
        | valloc n =>
          obtain ⟨rfl, rfl⟩ := Prod.mk.inj (Option.some.inj haligned)
          exact memalign_bad hbad
        | pvalloc n =>
          obtain ⟨rfl, rfl⟩ := Prod.mk.inj (Option.some.inj haligned)
          exact memalign_bad hbad
        | _ => exact absurd haligned (Option.some_ne_none _).symm
      obtain ⟨rfl, rfl⟩ := Prod.mk.inj (Option.some.inj (hrun.symm.trans hsame))
      exact .heap bs' hrep' hl' ha
    · exact absurd hzero hnonnull
    · exact .heap bs' hrep' hl' (heffects.ahead ha (hgrows bs h))

/-- One call of a run. -/
theorem BreakState.call (h : BreakState start s held) (hok : BreakUse start s held frame c)
    (hrun : c.run start raiseBreak frame s = some (p, s')) : BreakState start s' (c.live p held) := by
  cases h with
  | heap bs h hl ha => exact heap_call h hl ha hok hrun
  | fresh h hheld hheaders hbreak =>
    subst hheld
    have hv := hok.valid
    -- a call that returns null at once
    have hsame : c.run start raiseBreak frame s = some (0#64, s) → BreakState start s' (c.live p []) := by
      intro hnull
      obtain ⟨rfl, rfl⟩ := Prod.mk.inj (Option.some.inj (hrun.symm.trans hnull))
      exact .fresh h rfl hheaders hbreak
    have hpassed : ∀ q : Addr, Passable [] q → q = 0#64 := by
      rintro q (hq | ⟨d, hd, -⟩)
      · exact hq
      · exact absurd hd List.not_mem_nil
    have halign : ∀ align sz, c.aligned = some (align, sz) →
        memalign frame align sz s = some (0#64, s) := by
      intro align sz haligned
      rcases hok.align align sz haligned with hbad | ⟨-, hcan⟩ | ⟨hnonnull, -⟩
      · exact memalign_bad hbad
      · exact memalign_fresh h hcan
      · exact absurd h.1 hnonnull
    cases c with
    | malloc sz => exact fresh_call h hheaders hbreak hok.above hv rfl (malloc_initEnd sz) hrun
    | calloc n e => exact fresh_call h hheaders hbreak hok.above hv rfl (calloc_initEnd n e) hrun
    | realloc q sz =>
      obtain rfl := hpassed q hv.1
      exact fresh_call h hheaders hbreak hok.above hv rfl (realloc_initEnd sz) hrun
    | memalign align sz => exact hsame (halign _ _ rfl)
    | valloc sz => exact hsame (halign _ _ rfl)
    | pvalloc sz => exact hsame (halign _ _ rfl)
    | free q =>
      obtain rfl := hpassed q hv
      exact hsame (congrArg (Option.map _) (free_null s))
    | cfree q =>
      obtain rfl := hpassed q hv
      exact hsame (congrArg (Option.map _) (free_null s))

end Break

/-- **The break stays ahead of the heap** in every run whose calls of `memalign` need
nothing from it. -/
theorem below_break (start : MallocStart) (s : TinyMalloc (BitVec 64)) (held : List Chunk)
    (h : HeapRun start raiseBreak (Started start) (BreakUse start) s held) :
    BelowBreak start s held := by
  have hstate : BreakState start s held := by
    induction h with
    | start h =>
      refine .fresh h.fresh rfl ?_ h.break_above
      rw [h.headers]
      exact fun _ he => absurd he List.not_mem_nil
    | call _ hok hrun ih => exact ih.call hok hrun
    | store m _ hm ih =>
      cases ih with
      | fresh h hheld hheaders hbreak => exact .fresh h hheld hheaders hbreak
      | heap bs h hl ha => exact .heap bs (h.store hl hm) hl ⟨ha.headers, ha.ahead⟩
  exact hstate.below

theorem smallHeap_started : Started smallStart smallHeap where
  fresh := ⟨rfl, rfl⟩
  headers := rfl
  break_above := by decide

theorem smallHeap_anyUse : AnyUse smallStart smallHeap [] 0x8000#64 (.malloc 24#64) :=
  ⟨smallHeap_validUse.valid, smallHeap_validUse.frame⟩

/-- The heap ends below 0x1070 after the call, and the break is at 0x2000. -/
theorem grownHeap_breakUse :
    BreakUse smallStart grownHeap [⟨0x1008#64, 24⟩] 0x8000#64 (.memalign 32#64 24#64) where
  valid := grownHeap_validUse.valid
  above := grownHeap_validUse.frame
  align := by
    intro align sz haligned
    obtain ⟨rfl, rfl⟩ := Prod.mk.inj (Option.some.inj haligned)
    refine .inr (.inr ⟨by decide, fun bs hrep e hgrows => ?_⟩)
    have hlt := hrep.growsTo_lt (k := 5) (by decide) hgrows
    have hend : grownHeap.mallocEnd.toNat + 2 ^ 5 + 16 + requestSize (24#64).toNat = 0x1070 := rfl
    have hbreak : grownHeap.sys.toNat = 0x2000 := rfl
    omega

/-- The run of `freedHeap`: the headers of all three calls lie below the break. -/
theorem below_break_small :
    BelowBreak smallStart freedHeap [⟨0x1040#64, 24⟩] ∧ freedHeap.headers.length = 7 :=
  ⟨below_break smallStart freedHeap _
    (.call (.call (.call (.start smallHeap_started) ⟨smallHeap_anyUse, nofun⟩ smallHeap_malloc)
      grownHeap_breakUse grownHeap_aligns)
      ⟨⟨alignedHeap_validUse.valid, alignedHeap_validUse.frame⟩, nofun⟩ alignedHeap_free), rfl⟩

/-! ### Two runs that pass the break -/

theorem smallHeap_memalign : ∃ s,
    (HeapCall.memalign 8#64 24#64).run smallStart raiseBreak 0x8000#64 smallHeap =
      some (8#64, s) := by
  refine ⟨?_, ?_⟩
  rotate_left
  · show memalign 0x8000#64 8#64 24#64 smallHeap = _
    unfold memalign
    rw [show pointerRounds = 18446744073709551615 + 1 from rfl, memalignLoop,
      if_neg (by decide), if_pos (show smallHeap.deref Fle.freelist = 0#64 from rfl)]
    rfl

theorem grownHeap_memalign : ∃ s,
    (HeapCall.memalign 16#64 0x1000#64).run smallStart raiseBreak 0x8000#64 grownHeap =
      some (0x1040#64, s) ∧ s.sys = 0x2000#64 := by
  refine ⟨?_, ?_, ?_⟩
  rotate_left
  · show memalign 0x8000#64 16#64 0x1000#64 grownHeap = _
    unfold memalign
    rw [show pointerRounds = 18446744073709551615 + 1 from rfl, memalignLoop,
      if_neg (by decide), if_pos (show grownHeap.deref Fle.freelist = 0#64 from rfl)]
    rfl
  · rfl

/-- **`memalign` does not look at the break.**  As the first call it makes a heap at
address 0; after `malloc(24)` it returns a piece that ends above the break. -/
theorem memalign_not_below_break :
    (∃ s, HeapRun smallStart raiseBreak (Started smallStart) (AnyUse smallStart) s [⟨8#64, 24⟩] ∧
      ¬ BelowBreak smallStart s [⟨8#64, 24⟩]) ∧
    (∃ s, HeapRun smallStart raiseBreak (Started smallStart) (AnyUse smallStart) s
        [⟨0x1040#64, 0x1000⟩, ⟨0x1008#64, 24⟩] ∧
      ¬ BelowBreak smallStart s [⟨0x1040#64, 0x1000⟩, ⟨0x1008#64, 24⟩]) := by
  constructor
  · obtain ⟨s, hrun⟩ := smallHeap_memalign
    have huse : AnyUse smallStart smallHeap [] 0x8000#64 (.memalign 8#64 24#64) := by
      refine ⟨⟨?_, fun _ bs _ => ?_⟩, smallHeap_validUse.frame⟩
      · show _ < _
        decide
      · exact @unwrapped_of_small _ _ _ _ 3 (by decide) (by decide) _ bs
    refine ⟨s, .call (.start smallHeap_started) huse hrun, fun h => ?_⟩
    exact absurd (h.pieces _ List.mem_cons_self).1 (by decide)
  · obtain ⟨s, hrun, hsys⟩ := grownHeap_memalign
    have huse : AnyUse smallStart grownHeap [⟨0x1008#64, 24⟩] 0x8000#64
        (.memalign 16#64 0x1000#64) := by
      refine ⟨⟨?_, fun _ bs _ => ?_⟩, ?_⟩
      · show _ < _
        decide
      · exact @unwrapped_of_small _ _ _ _ 4 (by decide) (by decide) _ bs
      · show _ ≤ _
        decide
    refine ⟨s, .call (.call (.start smallHeap_started) smallHeap_anyUse smallHeap_malloc) huse hrun,
      fun h => ?_⟩
    have hpiece := (h.pieces _ List.mem_cons_self).2
    rw [hsys] at hpiece
    exact absurd hpiece (by decide)

end TinyMalloc

end KeystoneSdk
