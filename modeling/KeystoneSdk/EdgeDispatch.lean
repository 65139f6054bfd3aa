/-
Dispatch of edge calls (`edge_dispatch.c`, build without
`IO_SYSCALL_WRAPPING`).

The table of handlers has `MAX_EDGE_CALL` elements; a C array does not end
there, so the model of the table goes on with the words behind it and records
which elements are touched.

* `registerCall`, `incomingCallDispatch` — the two functions;
* `registerAll_entry` — what a sequence of registrations leaves in the table;
* **`dispatch_finiteMap_iff`** — the table is a finite map from ids to handlers
  as long as nobody uses the id `MAX_EDGE_CALL`.
-/
import KeystoneSdk.EdgeCall

open ByteMemory

namespace KeystoneSdk

def maxEdgeCall : ℕ := 40

/-- `edgecallwrapper`, the address of a handler; 0 is `NULL`. -/
abbrev EdgeCallWrapper := Addr

/-- `edge_call_table`, and the elements read or written so far. -/
structure EdgeCallTable where
  entry : ℕ → EdgeCallWrapper
  touched : List ℕ

namespace EdgeCallTable

/-- `register_call`. -/
def registerCall (t : EdgeCallTable) (callId : BitVec 64) (func : EdgeCallWrapper) :
    Int × EdgeCallTable :=
  if callId > BitVec.ofNat 64 maxEdgeCall then (-1, t)
  else
    (0, { entry := Function.update t.entry callId.toNat func
          touched := t.touched ++ [callId.toNat] })

/-- What a dispatch did: the handler it runs on the buffer, if any, and the
memory. -/
structure Dispatched where
  handler : Option EdgeCallWrapper
  mem : Mem

/-- `incoming_call_dispatch`. -/
def incomingCallDispatch (t : EdgeCallTable) (m : Mem) (buffer : EdgeCallPtr) :
    Dispatched × EdgeCallTable :=
  let callId := readLE64 m buffer.callId
  let fatalError : Dispatched := ⟨none, writeLE64 m buffer.callStatus callStatusBadCallId⟩
  if callId > BitVec.ofNat 64 maxEdgeCall then (fatalError, t)
  else
    let t' := { t with touched := t.touched ++ [callId.toNat] }
    if t.entry callId.toNat = 0#64 then (fatalError, t')
    else (⟨some (t.entry callId.toNat), m⟩, t')

/-- A sequence of registrations, with their results. -/
def registerAll : EdgeCallTable → List (BitVec 64 × EdgeCallWrapper) →
    EdgeCallTable × List (BitVec 64 × EdgeCallWrapper × Int)
  | t, [] => (t, [])
  | t, (callId, func) :: rest =>
    let (result, t') := t.registerCall callId func
    let (t'', results) := t'.registerAll rest
    (t'', (callId, func, result) :: results)

/-- The last handler whose registration under `callId` returned 0. -/
def lastHandler (callId : BitVec 64) :
    List (BitVec 64 × EdgeCallWrapper × Int) → Option EdgeCallWrapper
  | [] => none
  | (callId', func, result) :: rest =>
    (lastHandler callId rest).or (if callId' = callId ∧ result = 0 then some func else none)

/-- The table of a program that has not registered anything: a static array. -/
structure Initial (t : EdgeCallTable) : Prop where
  entry : ∀ i, i < maxEdgeCall → t.entry i = 0#64
  touched : t.touched = []

/-! ### Registrations -/

theorem gt_maxEdgeCall (callId : BitVec 64) :
    callId > BitVec.ofNat 64 maxEdgeCall ↔ maxEdgeCall < callId.toNat := by
  rw [gt_iff_lt, BitVec.lt_def]
  rfl

theorem registerCall_entry (t : EdgeCallTable) (callId : BitVec 64) (func : EdgeCallWrapper)
    (i : ℕ) : (t.registerCall callId func).2.entry i =
      if callId.toNat = i ∧ callId.toNat ≤ maxEdgeCall then func else t.entry i := by
  rw [registerCall]
  by_cases h : callId > BitVec.ofNat 64 maxEdgeCall
  · rw [if_pos h, if_neg]
    have := (gt_maxEdgeCall callId).mp h
    omega
  · have hle : callId.toNat ≤ maxEdgeCall := by
      have := mt (gt_maxEdgeCall callId).mpr h
      omega
    rw [if_neg h]
    by_cases hi : callId.toNat = i
    · subst hi
      simp [hle]
    · simp [Function.update_of_ne (Ne.symm hi), hi]

theorem registerCall_result (t : EdgeCallTable) (callId : BitVec 64) (func : EdgeCallWrapper) :
    (t.registerCall callId func).1 = 0 ↔ callId.toNat ≤ maxEdgeCall := by
  rw [registerCall]
  by_cases h : callId > BitVec.ofNat 64 maxEdgeCall
  · have := (gt_maxEdgeCall callId).mp h
    rw [if_pos h]
    simp
    omega
  · have := mt (gt_maxEdgeCall callId).mpr h
    rw [if_neg h]
    simp
    omega

theorem registerCall_touched (t : EdgeCallTable) (callId : BitVec 64) (func : EdgeCallWrapper) :
    (t.registerCall callId func).2.touched =
      if callId.toNat ≤ maxEdgeCall then t.touched ++ [callId.toNat] else t.touched := by
  rw [registerCall]
  by_cases h : callId > BitVec.ofNat 64 maxEdgeCall
  · have := (gt_maxEdgeCall callId).mp h
    rw [if_pos h, if_neg (by omega)]
  · have := mt (gt_maxEdgeCall callId).mpr h
    rw [if_neg h, if_pos (by omega)]

/-- An element of the table holds the last handler registered for it. -/
theorem registerAll_entry (t : EdgeCallTable) (calls : List (BitVec 64 × EdgeCallWrapper))
    {callId : BitVec 64} (h : callId.toNat ≤ maxEdgeCall) :
    (t.registerAll calls).1.entry callId.toNat =
      (lastHandler callId (t.registerAll calls).2).getD (t.entry callId.toNat) := by
  induction calls generalizing t with
  | nil => rfl
  | cons c rest ih =>
    obtain ⟨callId', func⟩ := c
    simp only [registerAll, lastHandler]
    rw [ih, registerCall_entry]
    simp only [registerCall_result, BitVec.toNat_inj]
    rcases lastHandler callId ((t.registerCall callId' func).2.registerAll rest).2 with _ | f
    · by_cases hid : callId' = callId
      · subst hid
        simp [h]
      · simp [hid]
    · simp

/-- No registration of an id behind the table succeeds. -/
theorem lastHandler_none (t : EdgeCallTable) (calls : List (BitVec 64 × EdgeCallWrapper))
    {callId : BitVec 64} (h : maxEdgeCall < callId.toNat) :
    lastHandler callId (t.registerAll calls).2 = none := by
  induction calls generalizing t with
  | nil => rfl
  | cons c rest ih =>
    obtain ⟨callId', func⟩ := c
    have hnot : ¬ (callId' = callId ∧ (t.registerCall callId' func).1 = 0) := by
      rintro ⟨rfl, hresult⟩
      have := (registerCall_result t callId' func).mp hresult
      omega
    simp only [registerAll, lastHandler]
    rw [ih, if_neg hnot]
    rfl

/-- The elements touched by a sequence of registrations. -/
theorem mem_registerAll_touched (t : EdgeCallTable)
    (calls : List (BitVec 64 × EdgeCallWrapper)) (i : ℕ) :
    i ∈ (t.registerAll calls).1.touched ↔
      i ∈ t.touched ∨ i ≤ maxEdgeCall ∧ ∃ c ∈ calls, c.1.toNat = i := by
  induction calls generalizing t with
  | nil => simp [registerAll]
  | cons c rest ih =>
    obtain ⟨callId', func⟩ := c
    simp only [registerAll]
    rw [ih, registerCall_touched]
    by_cases hle : callId'.toNat ≤ maxEdgeCall
    · rw [if_pos hle, List.mem_append, List.mem_singleton]
      constructor
      · rintro ((h | rfl) | ⟨hi, c, hc, hci⟩)
        · exact .inl h
        · exact .inr ⟨hle, _, List.mem_cons_self, rfl⟩
        · exact .inr ⟨hi, c, List.mem_cons_of_mem _ hc, hci⟩
      · rintro (h | ⟨hi, c, hc, hci⟩)
        · exact .inl (.inl h)
        · obtain rfl | hc := List.mem_cons.mp hc
          · exact .inl (.inr hci.symm)
          · exact .inr ⟨hi, c, hc, hci⟩
    · rw [if_neg hle]
      constructor
      · rintro (h | ⟨hi, c, hc, hci⟩)
        · exact .inl h
        · exact .inr ⟨hi, c, List.mem_cons_of_mem _ hc, hci⟩
      · rintro (h | ⟨hi, c, hc, hci⟩)
        · exact .inl h
        · obtain rfl | hc := List.mem_cons.mp hc
          · exact absurd (hci ▸ hi) hle
          · exact .inr ⟨hi, c, hc, hci⟩

/-! ### Dispatch -/

/-- What a dispatch should do when `func` is registered for the id. -/
def expected (m : Mem) (buffer : EdgeCallPtr) : Option EdgeCallWrapper → Dispatched
  | none => ⟨none, writeLE64 m buffer.callStatus callStatusBadCallId⟩
  | some func =>
    if func = 0#64 then ⟨none, writeLE64 m buffer.callStatus callStatusBadCallId⟩
    else ⟨some func, m⟩

/-- After the registrations `calls` the table acts as a finite map: the call in
the buffer is dispatched to the last handler registered for its id, whatever
is registered under another id, and nothing outside the table is touched. -/
structure FiniteMap (t : EdgeCallTable) (calls : List (BitVec 64 × EdgeCallWrapper)) (m : Mem)
    (buffer : EdgeCallPtr) : Prop where
  handler :
    ((t.registerAll calls).1.incomingCallDispatch m buffer).1 =
      expected m buffer (lastHandler (readLE64 m buffer.callId) (t.registerAll calls).2)
  others : ∀ callId func, callId ≠ readLE64 m buffer.callId →
    (((t.registerAll calls).1.registerCall callId func).2.incomingCallDispatch m buffer).1 =
      ((t.registerAll calls).1.incomingCallDispatch m buffer).1
  inside : ∀ i ∈ ((t.registerAll calls).1.incomingCallDispatch m buffer).2.touched,
    i < maxEdgeCall

/-- A dispatch only depends on the element of its id. -/
theorem incomingCallDispatch_congr {t t' : EdgeCallTable} {m : Mem} {buffer : EdgeCallPtr}
    (h : t'.entry (readLE64 m buffer.callId).toNat = t.entry (readLE64 m buffer.callId).toNat) :
    (t'.incomingCallDispatch m buffer).1 = (t.incomingCallDispatch m buffer).1 := by
  simp only [incomingCallDispatch, h]
  split
  · rfl
  · split
    · rfl
    · rfl

theorem incomingCallDispatch_touched (t : EdgeCallTable) (m : Mem) (buffer : EdgeCallPtr) :
    (t.incomingCallDispatch m buffer).2.touched =
      if (readLE64 m buffer.callId).toNat ≤ maxEdgeCall then
        t.touched ++ [(readLE64 m buffer.callId).toNat]
      else t.touched := by
  rw [incomingCallDispatch]
  by_cases h : readLE64 m buffer.callId > BitVec.ofNat 64 maxEdgeCall
  · have hlt := (gt_maxEdgeCall _).mp h
    simp only [if_pos h]
    rw [if_neg (Nat.not_le.mpr hlt)]
  · have hle : (readLE64 m buffer.callId).toNat ≤ maxEdgeCall := by
      have := mt (gt_maxEdgeCall _).mpr h
      omega
    simp only [if_neg h, if_pos hle]
    split
    · rfl
    · rfl

/-- **Dispatch is a finite map exactly without the id `MAX_EDGE_CALL`**, for
which both functions go one element behind the table. -/
theorem dispatch_finiteMap_iff (t : EdgeCallTable) (ht : t.Initial)
    (calls : List (BitVec 64 × EdgeCallWrapper)) (m : Mem) (buffer : EdgeCallPtr) :
    t.FiniteMap calls m buffer ↔
      (∀ c ∈ calls, c.1 ≠ BitVec.ofNat 64 maxEdgeCall) ∧
        readLE64 m buffer.callId ≠ BitVec.ofNat 64 maxEdgeCall := by
  have htouched := incomingCallDispatch_touched (t.registerAll calls).1 m buffer
  have hreg := mem_registerAll_touched t calls
  simp only [ht.touched, List.not_mem_nil, false_or] at hreg
  have hmax : ∀ callId : BitVec 64,
      callId ≠ BitVec.ofNat 64 maxEdgeCall ↔ callId.toNat ≠ maxEdgeCall := by
    intro callId
    rw [not_iff_not, ← BitVec.toNat_inj]
    rfl
  simp only [hmax]
  constructor
  · -- the id passes both tests, so that both functions touch the element behind the table
    intro hmap
    have hinside := hmap.inside
    rw [htouched] at hinside
    refine ⟨fun c hc heq => ?_, fun heq => ?_⟩
    · have hmem := (hreg maxEdgeCall).mpr ⟨le_rfl, c, hc, heq⟩
      have : maxEdgeCall < maxEdgeCall := by
        refine hinside _ ?_
        split
        · exact List.mem_append_left _ hmem
        · exact hmem
      omega
    · rw [if_pos heq.le] at hinside
      have := hinside _ (List.mem_append_right _ (List.mem_singleton_self _))
      omega
  · rintro ⟨hcalls, hid⟩
    -- what is called, that other ids do not matter, and which elements are touched
    refine ⟨?_, fun callId func hne => ?_, fun i hi => ?_⟩
    · rw [incomingCallDispatch]
      by_cases h : readLE64 m buffer.callId > BitVec.ofNat 64 maxEdgeCall
      · rw [lastHandler_none _ _ ((gt_maxEdgeCall _).mp h)]
        simp only [if_pos h]
        rfl
      · have hle := mt (gt_maxEdgeCall _).mpr h
        have hentry := registerAll_entry t calls
          (show (readLE64 m buffer.callId).toNat ≤ maxEdgeCall by omega)
        rw [ht.entry _ (by omega)] at hentry
        simp only [if_neg h, hentry]
        rcases lastHandler (readLE64 m buffer.callId) (t.registerAll calls).2 with _ | f
        · rfl
        · by_cases hf : f = 0#64
          · simp [expected, hf]
          · simp [expected, hf]
    · refine incomingCallDispatch_congr ?_
      rw [registerCall_entry, if_neg]
      rintro ⟨heq, -⟩
      exact hne (BitVec.eq_of_toNat_eq heq)
    · rw [htouched] at hi
      have hcase : i ∈ (t.registerAll calls).1.touched ∨
          i = (readLE64 m buffer.callId).toNat ∧ i ≤ maxEdgeCall := by
        split at hi
        · obtain hi | hi := List.mem_append.mp hi
          · exact .inl hi
          · rw [List.mem_singleton] at hi
            exact .inr ⟨hi, by omega⟩
        · exact .inl hi
      obtain hi | ⟨rfl, hle⟩ := hcase
      · obtain ⟨hle, c, hc, rfl⟩ := (hreg i).mp hi
        have := hcalls c hc
        omega
      · omega

theorem registerCall_behind_table :
    ¬ (FiniteMap ⟨fun _ => 0#64, []⟩ [(40#64, 0x8000#64)] (fun _ => 0) 0x1000#64) := by
  intro hmap
  have := hmap.inside 40 (by decide)
  exact absurd this (by decide)

theorem dispatch_finiteMap_iff_small :
    FiniteMap ⟨fun _ => 0#64, []⟩ [(3#64, 0x8000#64), (39#64, 0x9000#64), (41#64, 0xa000#64)]
      (fun _ => 0) 0x1000#64 :=
  (dispatch_finiteMap_iff ⟨fun _ => 0#64, []⟩ ⟨fun _ _ => rfl, rfl⟩
    [(3#64, 0x8000#64), (39#64, 0x9000#64), (41#64, 0xa000#64)] (fun _ => 0) 0x1000#64).mpr
    ⟨by simp [maxEdgeCall], by decide⟩

end EdgeCallTable

end KeystoneSdk
