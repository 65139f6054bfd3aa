/-
The handler for proxied system calls (`edge_syscall.c`, `edge_syscall.h`).

The handler reads the arguments of a host system call from the shared region
and passes pointers into that region on to the host; the check on
`call_arg_offset` and `call_arg_size` is the only one made.

* `syscallArgs` — the argument structures, one for each system call;
* `incomingSyscall` — the handler, over any behaviour of the host;
* `RequestFits` — arguments, strings and buffers end before the region does;
* **`incomingSyscall_confined_iff`** — a call that reaches the host stays in the
  shared region exactly if its request fits.
-/
import KeystoneSdk.EdgeCall

open ByteMemory AccessLog

namespace KeystoneSdk

/-! ### `edge_syscall.h` -/

/-- The system calls that are proxied. -/
inductive Syscall
  | openat | unlinkat | ftruncate | fstatat | write | read | sync | fsync | close | lseek
  deriving DecidableEq

/-- `SYS_…`. -/
def Syscall.num : Syscall → BitVec 64
  | openat => 56#64
  | unlinkat => 35#64
  | ftruncate => 46#64
  | fstatat => 79#64
  | write => 64#64
  | read => 63#64
  | sync => 81#64
  | fsync => 82#64
  | close => 57#64
  | lseek => 62#64

/-- The `case` of the `switch` a number belongs to. -/
def Syscall.ofNum (n : BitVec 64) : Option Syscall :=
  [openat, unlinkat, ftruncate, fstatat, write, read, sync, fsync, close, lseek].find?
    fun c => n = c.num

/-- A host system call with its arguments. -/
inductive HostCall
  | openat (dirfd : BitVec 32) (path : Addr) (flags mode : BitVec 32)
  | unlinkat (dirfd : BitVec 32) (path : Addr) (flags : BitVec 32)
  | ftruncate (fd : BitVec 32) (offset : BitVec 64)
  | fstatat (dirfd : BitVec 32) (pathname stats : Addr) (flags : BitVec 32)
  | write (fd : BitVec 32) (buf : Addr) (len : BitVec 64)
  | read (fd : BitVec 32) (buf : Addr) (len : BitVec 64)
  | sync
  | fsync (fd : BitVec 32)
  | close (fd : BitVec 32)
  | lseek (fd : BitVec 32) (offset : BitVec 64) (whence : BitVec 32)

/-- Memory handed to the host: a block, or a string that ends at its first NUL. -/
inductive Buffer
  | block (a : Addr) (n : ℕ)
  | string (a : Addr)

/-- The memory a host call reads or writes; `statSize` is `sizeof(struct stat)`. -/
def HostCall.buffers (statSize : ℕ) : HostCall → List Buffer
  | openat _ path _ _ => [.string path]
  | unlinkat _ path _ => [.string path]
  | fstatat _ pathname stats _ => [.string pathname, .block stats statSize]
  | write _ buf len => [.block buf len.toNat]
  | read _ buf len => [.block buf len.toNat]
  | ftruncate .. | sync | fsync .. | close .. | lseek .. => []

/-! ### `edge_syscall.c` -/

/-- The arguments of a system call, read from the `data` of an
`edge_syscall_t`.  `fstatat` finds the name behind the structure it fills. -/
def syscallArgs (statSize : ℕ) (data : Addr) : Syscall → TouchM HostCall
  | .openat => do
    let dirfd ← loadInt data
    let flags ← loadInt (data + 4#64)
    let mode ← loadInt (data + 8#64)
    return .openat dirfd (data + 12#64) flags mode
  | .unlinkat => do
    let dirfd ← loadInt data
    let flags ← loadInt (data + 4#64)
    return .unlinkat dirfd (data + 12#64) flags
  | .ftruncate => do
    let fd ← loadInt data
    let offset ← loadWord (data + 8#64)
    return .ftruncate fd offset
  | .fstatat => do
    let dirfd ← loadInt data
    let flags ← loadInt (data + 4#64)
    return .fstatat dirfd (data + BitVec.ofNat 64 (8 + statSize)) (data + 8#64) flags
  | .write => do
    let fd ← loadInt data
    let len ← loadWord (data + 8#64)
    return .write fd (data + 16#64) len
  | .read => do
    let fd ← loadInt data
    let len ← loadWord (data + 8#64)
    return .read fd (data + 16#64) len
  | .sync => return .sync
  | .fsync => do
    let fd ← loadInt data
    return .fsync fd
  | .close => do
    let fd ← loadInt data
    return .close fd
  | .lseek => do
    let fd ← loadInt data
    let offset ← loadWord (data + 8#64)
    let whence ← loadInt (data + 16#64)
    return .lseek fd offset whence

/-- The host: a call returns an `int64_t` and may change memory. -/
abbrev Host := HostCall → Mem → BitVec 64 × Mem

/-- Make a host call; the memory it is made in is returned with the result. -/
def callHost (host : Host) (call : HostCall) : TouchM (Mem × BitVec 64) := do
  let m := (← get).mem
  modify fun s => { s with mem := (host call m).2 }
  return (m, (host call m).1)

namespace EdgeGlobals

/-- `incoming_syscall`.  The result is the host call made, if any, with the
memory it was made in. -/
def incomingSyscall (g : EdgeGlobals) (statSize : ℕ) (host : Host) (edgeCall : EdgeCallPtr) :
    TouchM (Option (HostCall × Mem)) := do
  let some syscallInfo ← g.edgeCallArgsPtr edgeCall
    | storeWord edgeCall.callStatus callStatusSyscallFailed
      return none
  storeWord edgeCall.callStatus callStatusOk
  let some syscall := Syscall.ofNum (← loadWord syscallInfo)
    | storeWord edgeCall.callStatus callStatusSyscallFailed
      return none
  let call ← syscallArgs statSize (syscallInfo + 8#64) syscall
  let (m, ret) ← callHost host call
  storeWord g.edgeCallDataPtr ret
  let setup ← g.edgeCallSetupRet edgeCall g.edgeCallDataPtr 8#64
  if setup ≠ 0 then
    storeWord edgeCall.callStatus callStatusSyscallFailed
  return some (call, m)

/-! ### Requests that fit -/

/-- A buffer lies in the shared region, a string with the NUL that ends it. -/
def Inside (g : EdgeGlobals) (m : Mem) : Buffer → Prop
  | .block a n => g.region.Covers a n
  | .string a => ∃ n, m (a + BitVec.ofNat 64 n) = 0 ∧ g.region.Covers a (n + 1)

/-- From `a` on there is a NUL before the end of the region. -/
def StringFits (g : EdgeGlobals) (m : Mem) (a : Addr) : Prop :=
  ∃ n, m (a + BitVec.ofNat 64 n) = 0 ∧ g.region.offset a + n + 1 ≤ g.sharedLen.toNat

/-- The arguments of a system call end before the region does, and so do the
strings and buffers behind them.  (What follows the padding behind `fd` has its
own offset: in a region of almost `2 ^ 64` bytes it may start at the other end.) -/
def ArgsFit (g : EdgeGlobals) (statSize : ℕ) (m : Mem) (data : Addr) : Syscall → Prop
  | .openat => g.region.offset data + 12 ≤ g.sharedLen.toNat ∧ g.StringFits m (data + 12#64)
  | .unlinkat => g.region.offset data + 8 ≤ g.sharedLen.toNat ∧ g.StringFits m (data + 12#64)
  | .ftruncate =>
    g.region.offset data + 4 ≤ g.sharedLen.toNat ∧
      g.region.offset (data + 8#64) + 8 ≤ g.sharedLen.toNat
  | .fstatat =>
    g.region.offset data + 8 + statSize ≤ g.sharedLen.toNat ∧
      g.StringFits m (data + BitVec.ofNat 64 (8 + statSize))
  | .write | .read =>
    g.region.offset data + 4 ≤ g.sharedLen.toNat ∧
      g.region.offset (data + 8#64) + 8 + (readLE64 m (data + 8#64)).toNat ≤ g.sharedLen.toNat
  | .sync => True
  | .fsync | .close => g.region.offset data + 4 ≤ g.sharedLen.toNat
  | .lseek =>
    g.region.offset data + 4 ≤ g.sharedLen.toNat ∧
      g.region.offset (data + 8#64) + 12 ≤ g.sharedLen.toNat

/-- The request at `syscallInfo` fits into the region, and so does the result. -/
def RequestFits (g : EdgeGlobals) (statSize : ℕ) (m : Mem) (syscallInfo : Addr) : Prop :=
  ∀ syscall, Syscall.ofNum (readLE64 m syscallInfo) = some syscall →
    sizeofEdgeCall + 8 ≤ g.sharedLen.toNat ∧
      g.region.offset syscallInfo + 8 ≤ g.sharedLen.toNat ∧
      g.ArgsFit statSize m (syscallInfo + 8#64) syscall

/-- Everything the handler touched lies in the region, and so do the buffers of
the host call it made. -/
structure Confined (g : EdgeGlobals) (statSize : ℕ) (call : HostCall × Mem) (s : Touched) :
    Prop where
  reads : ∀ r ∈ s.reads, g.region.Covers r.1 r.2
  writes : ∀ w ∈ s.writes, g.region.Covers w.1 w.2
  buffers : ∀ b ∈ call.1.buffers statSize, g.Inside call.2 b

theorem inside_string_iff (g : EdgeGlobals) (m : Mem) (a : Addr) :
    g.Inside m (.string a) ↔ g.StringFits m a := by
  constructor
  · rintro ⟨n, hnul, hcovers⟩
    have := (covers_iff g a (n + 1)).mp hcovers
    exact ⟨n, hnul, by omega⟩
  · rintro ⟨n, hnul, hfits⟩
    exact ⟨n, hnul, (covers_iff g a (n + 1)).mpr (.inr hfits)⟩

/-! ### Arguments -/

/-- What reading the arguments of a system call reads. -/
def argReads (data : Addr) : Syscall → List (Addr × ℕ)
  | .openat => [(data, 4), (data + 4#64, 4), (data + 8#64, 4)]
  | .unlinkat | .fstatat => [(data, 4), (data + 4#64, 4)]
  | .ftruncate | .write | .read => [(data, 4), (data + 8#64, 8)]
  | .sync => []
  | .fsync | .close => [(data, 4)]
  | .lseek => [(data, 4), (data + 8#64, 8), (data + 16#64, 4)]

/-- The host call the arguments in memory stand for. -/
def argCall (statSize : ℕ) (m : Mem) (data : Addr) : Syscall → HostCall
  | .openat =>
    .openat (readLE32 m data) (data + 12#64) (readLE32 m (data + 4#64)) (readLE32 m (data + 8#64))
  | .unlinkat => .unlinkat (readLE32 m data) (data + 12#64) (readLE32 m (data + 4#64))
  | .ftruncate => .ftruncate (readLE32 m data) (readLE64 m (data + 8#64))
  | .fstatat =>
    .fstatat (readLE32 m data) (data + BitVec.ofNat 64 (8 + statSize)) (data + 8#64)
      (readLE32 m (data + 4#64))
  | .write => .write (readLE32 m data) (data + 16#64) (readLE64 m (data + 8#64))
  | .read => .read (readLE32 m data) (data + 16#64) (readLE64 m (data + 8#64))
  | .sync => .sync
  | .fsync => .fsync (readLE32 m data)
  | .close => .close (readLE32 m data)
  | .lseek => .lseek (readLE32 m data) (readLE64 m (data + 8#64)) (readLE32 m (data + 16#64))

theorem run_syscallArgs (statSize : ℕ) (data : Addr) (syscall : Syscall) (s : Touched) :
    (syscallArgs statSize data syscall).run s =
      (argCall statSize s.mem data syscall, { s with reads := s.reads ++ argReads data syscall }) := by
  cases syscall <;>
    simp only [syscallArgs, argCall, argReads, run_bind, run_loadInt, run_loadWord, run_pure,
      List.append_assoc, List.cons_append, List.nil_append, List.append_nil]

/-- The arguments read, and the buffers of the call made with them, lie in the
region iff the arguments fit. -/
theorem argsFit_iff (g : EdgeGlobals) (statSize : ℕ) (m : Mem) (data : Addr) (syscall : Syscall)
    (hdata : g.region.offset data ≤ g.sharedLen.toNat) :
    ((∀ r ∈ argReads data syscall, g.region.Covers r.1 r.2) ∧
        ∀ b ∈ (argCall statSize m data syscall).buffers statSize, g.Inside m b) ↔
      g.ArgsFit statSize m data syscall := by
  have hlen := g.sharedLen.isLt
  have hblock : ∀ a n, g.Inside m (.block a n) ↔ g.region.Covers a n := fun _ _ => Iff.rfl
  -- in every case a chain of blocks, each starting inside the region because
  -- the one before it ends there
  cases syscall with
  | openat | unlinkat =>
    simp only [argReads, argCall, HostCall.buffers, ArgsFit, List.forall_mem_cons,
      List.not_mem_nil, IsEmpty.forall_iff, implies_true, inside_string_iff, covers_iff, Span.offset_add, and_true, StringFits]
    constructor
    · rintro ⟨hreads, n, hnul, hn⟩
      exact ⟨by omega, n, hnul, hn⟩
    · rintro ⟨hargs, n, hnul, hn⟩
      exact ⟨by omega, n, hnul, hn⟩
  | fstatat =>
    simp only [argReads, argCall, HostCall.buffers, ArgsFit, List.forall_mem_cons,
      List.not_mem_nil, IsEmpty.forall_iff, implies_true, inside_string_iff, hblock, covers_iff, Span.offset_add, and_true]
    constructor
    · rintro ⟨hreads, hname, hstats⟩
      exact ⟨by omega, hname⟩
    · rintro ⟨hargs, hname⟩
      exact ⟨by omega, hname, by omega⟩
  | write | read =>
    simp only [argReads, argCall, HostCall.buffers, ArgsFit, List.forall_mem_cons,
      List.not_mem_nil, IsEmpty.forall_iff, implies_true, hblock, covers_iff, Span.offset_add, and_true]
    omega
  | ftruncate | fsync | close | lseek =>
    simp only [argReads, argCall, HostCall.buffers, ArgsFit, List.forall_mem_cons,
      List.not_mem_nil, IsEmpty.forall_iff, implies_true, covers_iff, Span.offset_add, and_true]
    omega
  | sync => simp [argReads, argCall, HostCall.buffers, ArgsFit]

/-! ### The handler -/

theorem run_callHost (host : Host) (call : HostCall) (s : Touched) :
    (callHost host call).run s = ((s.mem, (host call s.mem).1), { s with mem := (host call s.mem).2 }) :=
  rfl

theorem edgeCallGetOffsetFromPtr_error {g : EdgeGlobals} {ptr dataLen : BitVec 64} {valid : ℕ}
    (h : g.edgeCallGetOffsetFromPtr ptr dataLen = .error valid) : valid ≠ 0 := by
  rw [edgeCallGetOffsetFromPtr] at h
  by_cases hvalid : g.edgeCallCheckPtrValid ptr dataLen ≠ 0
  · rw [if_pos hvalid] at h
    obtain rfl := Except.error.inj h
    exact hvalid
  · rw [if_neg hvalid] at h
    cases h

/-- The end of a handled request: the result is stored, then its place checked. -/
theorem run_setupResult (g : EdgeGlobals) (edgeCall : EdgeCallPtr) (ret : BitVec 64) {α : Type}
    (a : α) (s : Touched) :
    ∃ tail m, (tail = (edgeCall.callRetOffset, 8) ∨ tail = (edgeCall.callStatus, 8)) ∧
      (do
        storeWord g.edgeCallDataPtr ret
        let setup ← g.edgeCallSetupRet edgeCall g.edgeCallDataPtr 8#64
        if setup ≠ 0 then
          storeWord edgeCall.callStatus callStatusSyscallFailed
        return a : TouchM α).run s =
        (a, ⟨m, s.reads, s.writes ++ [(g.edgeCallDataPtr, 8), (edgeCall.callRetSize, 8), tail]⟩) := by
  simp only [run_bind, run_storeWord, edgeCallSetupRet, run_storeRetOffset]
  rcases hvalid : g.edgeCallGetOffsetFromPtr g.edgeCallDataPtr 8#64 with valid | offset
  · refine ⟨(edgeCall.callStatus, 8), writeLE64 (writeLE64 (writeLE64 s.mem g.edgeCallDataPtr ret)
      edgeCall.callRetSize 8#64) edgeCall.callStatus callStatusSyscallFailed, .inr rfl, ?_⟩
    simp only [if_pos (edgeCallGetOffsetFromPtr_error hvalid), run_bind, run_storeWord, run_pure,
      List.append_assoc, List.cons_append, List.nil_append]
  · refine ⟨(edgeCall.callRetOffset, 8), writeLE64 (writeLE64 (writeLE64 s.mem g.edgeCallDataPtr ret)
      edgeCall.callRetSize 8#64) edgeCall.callRetOffset offset, .inl rfl, ?_⟩
    simp only [ne_eq, not_true_eq_false, if_false, run_pure, List.append_assoc, List.cons_append,
      List.nil_append]

/-- A handled request: the call made, what is read, and what is written. -/
theorem incomingSyscall_handled (g : EdgeGlobals) (statSize : ℕ) (host : Host)
    (edgeCall : EdgeCallPtr) (m : Mem) {syscallInfo : Addr} {syscall : Syscall}
    (hptr : g.edgeCallGetPtrFromOffset (readLE64 m edgeCall.callArgOffset)
      (readLE64 m edgeCall.callArgSize) = some syscallInfo)
    (hnum : Syscall.ofNum
      (readLE64 (writeLE64 m edgeCall.callStatus callStatusOk) syscallInfo) = some syscall) :
    ∃ tail m', (tail = (edgeCall.callRetOffset, 8) ∨ tail = (edgeCall.callStatus, 8)) ∧
      (g.incomingSyscall statSize host edgeCall).run ⟨m, [], []⟩ =
        (some (argCall statSize (writeLE64 m edgeCall.callStatus callStatusOk)
            (syscallInfo + 8#64) syscall, writeLE64 m edgeCall.callStatus callStatusOk),
          ⟨m', [(edgeCall.callArgOffset, 8), (edgeCall.callArgSize, 8), (syscallInfo, 8)] ++
            argReads (syscallInfo + 8#64) syscall,
            [(edgeCall.callStatus, 8), (g.edgeCallDataPtr, 8), (edgeCall.callRetSize, 8),
              tail]⟩) := by
  have hargs : (g.edgeCallArgsPtr edgeCall).run ⟨m, [], []⟩ = (some syscallInfo,
      ⟨m, [(edgeCall.callArgOffset, 8), (edgeCall.callArgSize, 8)], []⟩) := by
    rw [run_edgeCallArgsPtr, hptr]
    rfl
  rw [incomingSyscall, run_bind_of hargs]
  dsimp only
  rw [run_bind_of (run_storeWord ..), run_bind_of (run_loadWord ..), hnum]
  dsimp only
  rw [run_bind_of (run_syscallArgs ..), run_bind_of (run_callHost ..)]
  obtain ⟨tail, m', htail, hrun⟩ := run_setupResult g edgeCall _ _ _
  exact ⟨tail, m', htail, hrun⟩

theorem incomingSyscall_refused (g : EdgeGlobals) (statSize : ℕ) (host : Host)
    (edgeCall : EdgeCallPtr) (m : Mem)
    (h : ∀ syscallInfo, g.edgeCallGetPtrFromOffset (readLE64 m edgeCall.callArgOffset)
        (readLE64 m edgeCall.callArgSize) = some syscallInfo →
      Syscall.ofNum (readLE64 (writeLE64 m edgeCall.callStatus callStatusOk) syscallInfo) = none) :
    ((g.incomingSyscall statSize host edgeCall).run ⟨m, [], []⟩).1 = none := by
  rw [incomingSyscall, run_bind_of (run_edgeCallArgsPtr ..)]
  rcases hptr : g.edgeCallGetPtrFromOffset (readLE64 m edgeCall.callArgOffset)
    (readLE64 m edgeCall.callArgSize) with _ | syscallInfo
  · rfl
  · dsimp only
    rw [run_bind_of (run_storeWord ..), run_bind_of (run_loadWord ..), h syscallInfo hptr]
    rfl

/-- **A system call that reaches the host stays in the shared region exactly if
its request fits** there: structures, strings and buffers, and the result. -/
theorem incomingSyscall_confined_iff (g : EdgeGlobals) (statSize : ℕ) (host : Host)
    (edgeCall : EdgeCallPtr) (hcall : g.HasCall edgeCall) (m : Mem) :
    (∀ call, ((g.incomingSyscall statSize host edgeCall).run ⟨m, [], []⟩).1 = some call →
        g.Confined statSize call ((g.incomingSyscall statSize host edgeCall).run ⟨m, [], []⟩).2) ↔
      ∀ syscallInfo, g.edgeCallGetPtrFromOffset (readLE64 m edgeCall.callArgOffset)
          (readLE64 m edgeCall.callArgSize) = some syscallInfo →
        g.RequestFits statSize (writeLE64 m edgeCall.callStatus callStatusOk) syscallInfo := by
  have hresult : g.region.Covers g.edgeCallDataPtr 8 ↔
      sizeofEdgeCall + 8 ≤ g.sharedLen.toNat := by
    rw [covers_iff, edgeCallDataPtr, show g.sharedStart = g.region.start from rfl,
      Span.offset_start_add _ (by decide)]
    omega
  have hnum : ∀ a, g.region.Covers a 8 ↔ g.region.offset a + 8 ≤ g.sharedLen.toNat := by
    intro a
    rw [covers_iff]
    omega
  have hdata : ∀ p, g.region.offset p + 8 ≤ g.sharedLen.toNat →
      g.region.offset (p + 8#64) ≤ g.sharedLen.toNat := by
    intro p hp
    have := g.sharedLen.isLt
    rw [Span.offset_add, Nat.mod_eq_of_lt (by omega)]
    exact hp
  constructor
  · intro hconfined p hptr syscall hsyscall
    obtain ⟨tail, m', -, hrun⟩ := incomingSyscall_handled g statSize host edgeCall m hptr hsyscall
    rw [hrun] at hconfined
    obtain ⟨hr, hw, hb⟩ := hconfined _ rfl
    have hp := (hnum p).mp (hr (p, 8) (by simp))
    refine ⟨hresult.mp (hw (g.edgeCallDataPtr, 8) (by simp)), hp, ?_⟩
    exact (argsFit_iff g statSize _ _ syscall (hdata p hp)).mp
      ⟨fun r hmem => hr r (List.mem_append_right _ hmem), hb⟩
  · intro hfits call hmade
    -- a call was made, so the offset was accepted and the number is known
    by_cases hnone : ∀ p, g.edgeCallGetPtrFromOffset (readLE64 m edgeCall.callArgOffset)
        (readLE64 m edgeCall.callArgSize) = some p →
      Syscall.ofNum (readLE64 (writeLE64 m edgeCall.callStatus callStatusOk) p) = none
    · rw [incomingSyscall_refused g statSize host edgeCall m hnone] at hmade
      cases hmade
    push Not at hnone
    obtain ⟨p, hptr, hsome⟩ := hnone
    obtain ⟨syscall, hsyscall⟩ := Option.ne_none_iff_exists'.mp hsome
    obtain ⟨tail, m', htail, hrun⟩ :=
      incomingSyscall_handled g statSize host edgeCall m hptr hsyscall
    obtain ⟨hret, hp, hargs⟩ := hfits p hptr syscall hsyscall
    obtain ⟨hr, hb⟩ := (argsFit_iff g statSize _ _ syscall (hdata p hp)).mpr hargs
    rw [hrun] at hmade ⊢
    obtain rfl := Option.some.inj hmade
    refine ⟨fun r hmem => ?_, fun w hmem => ?_, hb⟩
    · simp only [List.cons_append, List.nil_append, List.mem_cons] at hmem
      obtain rfl | rfl | rfl | hmem := hmem
      · exact hcall.field (o := 8) (by decide)
      · exact hcall.field (o := 16) (by decide)
      · exact (hnum p).mpr hp
      · exact hr r hmem
    · simp only [List.mem_cons, List.not_mem_nil, or_false] at hmem
      obtain rfl | rfl | rfl | rfl := hmem
      · exact hcall.field (o := 24) (by decide)
      · exact hresult.mpr hret
      · exact hcall.field (o := 40) (by decide)
      · obtain rfl | rfl := htail
        · exact hcall.field (o := 32) (by decide)
        · exact hcall.field (o := 24) (by decide)

/-- A shared page with a `SYS_write` request at offset `0x100`, for as many
bytes as the page has. -/
def overlongWrite : Mem := fun a =>
  if a = 0x1009#64 then 1 else if a = 0x1010#64 then 24 else if a = 0x1100#64 then 64
  else if a = 0x1111#64 then 0x10 else 0

theorem incomingSyscall_overlongWrite :
    ¬ ∀ call, ((incomingSyscall ⟨0x1000#64, 0x1000#64⟩ 128 (fun _ m => (0#64, m)) 0x1000#64).run
        ⟨overlongWrite, [], []⟩).1 = some call →
      Confined ⟨0x1000#64, 0x1000#64⟩ 128 call ((incomingSyscall ⟨0x1000#64, 0x1000#64⟩ 128
        (fun _ m => (0#64, m)) 0x1000#64).run ⟨overlongWrite, [], []⟩).2 := by
  intro hconfined
  have hptr : edgeCallGetPtrFromOffset ⟨0x1000#64, 0x1000#64⟩
      (readLE64 overlongWrite (EdgeCallPtr.callArgOffset 0x1000#64))
      (readLE64 overlongWrite (EdgeCallPtr.callArgSize 0x1000#64)) = some 0x1100#64 := by decide
  have hnum : Syscall.ofNum (readLE64 (writeLE64 overlongWrite (EdgeCallPtr.callStatus 0x1000#64)
      callStatusOk) 0x1100#64) = some .write := by decide
  obtain ⟨tail, m', -, hrun⟩ := incomingSyscall_handled ⟨0x1000#64, 0x1000#64⟩ 128
    (fun _ m => (0#64, m)) 0x1000#64 overlongWrite hptr hnum
  rw [hrun] at hconfined
  have hbuffers := (hconfined _ rfl).buffers
  have hlen : readLE64 (writeLE64 overlongWrite (EdgeCallPtr.callStatus 0x1000#64) callStatusOk)
      (0x1100#64 + 8#64 + 8#64) = 0x1000#64 := by decide
  have hblock := hbuffers (.block (0x1100#64 + 8#64 + 16#64) 0x1000) (by
    simp only [argCall, HostCall.buffers, hlen, List.mem_singleton]
    rfl)
  have := (covers_iff _ _ _).mp hblock
  revert this
  decide

/-- The same request for sixteen bytes. -/
def shortWrite : Mem := fun a =>
  if a = 0x1009#64 then 1 else if a = 0x1010#64 then 24 else if a = 0x1100#64 then 64
  else if a = 0x1110#64 then 0x10 else 0

theorem incomingSyscall_confined_iff_shortWrite :
    ∃ call, ((incomingSyscall ⟨0x1000#64, 0x1000#64⟩ 128 (fun _ m => (0#64, m)) 0x1000#64).run
        ⟨shortWrite, [], []⟩).1 = some call ∧
      Confined ⟨0x1000#64, 0x1000#64⟩ 128 call ((incomingSyscall ⟨0x1000#64, 0x1000#64⟩ 128
        (fun _ m => (0#64, m)) 0x1000#64).run ⟨shortWrite, [], []⟩).2 := by
  refine ⟨_, rfl, (incomingSyscall_confined_iff ⟨0x1000#64, 0x1000#64⟩ 128 (fun _ m => (0#64, m))
    0x1000#64 (by unfold HasCall; decide) shortWrite).mpr ?_ _ rfl⟩
  intro syscallInfo hptr syscall hsyscall
  have hinfo : edgeCallGetPtrFromOffset ⟨0x1000#64, 0x1000#64⟩
      (readLE64 shortWrite (EdgeCallPtr.callArgOffset 0x1000#64))
      (readLE64 shortWrite (EdgeCallPtr.callArgSize 0x1000#64)) = some 0x1100#64 := by decide
  obtain rfl := Option.some.inj (hptr.symm.trans hinfo)
  have hwrite : Syscall.ofNum (readLE64 (writeLE64 shortWrite (EdgeCallPtr.callStatus 0x1000#64)
      callStatusOk) 0x1100#64) = some .write := by decide
  obtain rfl := Option.some.inj (hsyscall.symm.trans hwrite)
  refine ⟨by decide, by decide, ?_⟩
  unfold ArgsFit
  decide

end EdgeGlobals

end KeystoneSdk
