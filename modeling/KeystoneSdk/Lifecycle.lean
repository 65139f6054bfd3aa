/-
The life of one `Keystone` object (`keystone.cpp`): its enclaves and ELF files.

* `Event`, `DestroyedAt` — the history of an object: what it asked the driver
  and which files it made and deleted;
* `Lifecycle` — what such a history owes: no enclave is destroyed twice, and
  every file is deleted exactly once;
* `KeystoneObject` — the fields the calls work on, with `destroy`, `initFiles`,
  `prepareEnclave`, `init`, `run` and the destructor over the results of every
  step;
* **`lifecycle_iff`** — for every sequence of calls: the history is in order
  iff no call reaches `destroy` while `eid` names an enclave that is gone, and
  the destructor finds no file that `destroy` will delete once more.
-/
import KeystoneSdk.HostCommon

namespace KeystoneSdk

/-! ### Histories -/

/-- What an object does outside itself.  Files are numbered as they are made,
and `destroy` carries whether the driver accepted the request. -/
inductive Event
  | create (id : BitVec 64)
  | destroy (id : BitVec 64) (ok : Bool)
  | newFile (file : ℕ)
  | deleteFile (file : ℕ)
  deriving DecidableEq, Repr

/-- At the end of the history, `id` has been destroyed and not created again. -/
def DestroyedAt (log : List Event) (id : BitVec 64) : Prop :=
  ∃ pre post, log = pre ++ .destroy id true :: post ∧ .create id ∉ post

/-- What the history of an object owes its enclaves and its files.  The driver
may use an id again for a later enclave, so the life of an enclave runs from
the event that creates its id to the next one. -/
structure Lifecycle (log : List Event) : Prop where
  destroyedOnce : ∀ id pre post, log = pre ++ .create id :: post → .create id ∉ post →
    post.count (.destroy id true) ≤ 1
  notAfterDestroy : ∀ pre id ok, pre ++ [.destroy id ok] <+: log → ¬ DestroyedAt pre id
  deletedOnce : ∀ file, .newFile file ∈ log → log.count (.deleteFile file) = 1

theorem destroyedAt_concat (log : List Event) (e : Event) (id : BitVec 64) :
    DestroyedAt (log ++ [e]) id ↔
      e = .destroy id true ∨ e ≠ .create id ∧ DestroyedAt log id := by
  constructor
  · rintro ⟨pre, post, h, hpost⟩
    rcases List.eq_nil_or_concat post with rfl | ⟨post', e', rfl⟩
    · obtain ⟨-, he⟩ := List.append_inj' h rfl
      exact .inl (List.cons.inj he).1
    · rw [List.concat_eq_append] at h hpost
      rw [← List.cons_append, ← List.append_assoc] at h
      obtain ⟨hlog, he⟩ := List.append_inj' h rfl
      obtain rfl := (List.cons.inj he).1
      rw [List.mem_append, not_or] at hpost
      refine .inr ⟨?_, pre, post', hlog, hpost.1⟩
      rintro rfl
      exact hpost.2 (List.mem_singleton_self _)
  · rintro (rfl | ⟨he, pre, post, rfl, hpost⟩)
    · exact ⟨log, [], rfl, List.not_mem_nil⟩
    · refine ⟨pre, post ++ [e], by simp, ?_⟩
      rw [List.mem_append, not_or, List.mem_singleton]
      exact ⟨hpost, fun h => he h.symm⟩

/-- The second clause of `Lifecycle` as a property of its own: it is the one
that a single event can break. -/
def NotAfterDestroy (log : List Event) : Prop :=
  ∀ pre id ok, pre ++ [.destroy id ok] <+: log → ¬ DestroyedAt pre id

theorem notAfterDestroy_nil : NotAfterDestroy [] := by
  intro pre id ok h
  have := List.IsPrefix.length_le h
  simp at this

theorem notAfterDestroy_concat (log : List Event) (e : Event) :
    NotAfterDestroy (log ++ [e]) ↔
      NotAfterDestroy log ∧ ∀ id ok, e = .destroy id ok → ¬ DestroyedAt log id := by
  constructor
  · intro h
    refine ⟨fun pre id ok hpre => h pre id ok (hpre.trans (List.prefix_append _ _)), ?_⟩
    rintro id ok rfl
    exact h log id ok (List.prefix_refl _)
  · rintro ⟨h, he⟩ pre id ok hpre
    rcases List.prefix_concat_iff.1 hpre with heq | hpre
    · obtain ⟨rfl, hlast⟩ := List.append_inj' heq rfl
      exact he id ok (List.cons.inj hlast).1.symm
    · exact h pre id ok hpre

/-- A life with a successful destroy in it ends destroyed, and has only that
one: the next would come after it. -/
theorem NotAfterDestroy.count_le {pre post : List Event} {id : BitVec 64}
    (h : NotAfterDestroy (pre ++ post)) (hpost : .create id ∉ post) :
    post.count (.destroy id true) ≤ 1 ∧
      (post.count (.destroy id true) = 1 → DestroyedAt (pre ++ post) id) := by
  induction post using List.reverseRecOn with
  | nil => simp
  | append_singleton post e ih =>
    rw [← List.append_assoc, notAfterDestroy_concat] at h
    rw [List.mem_append, not_or, List.mem_singleton] at hpost
    obtain ⟨hle, hone⟩ := ih h.1 hpost.1
    rw [List.count_append, ← List.append_assoc, destroyedAt_concat]
    by_cases he : e = .destroy id true
    · subst he
      -- a second one would come after the first
      have hzero : post.count (.destroy id true) = 0 := by
        by_contra hne
        exact h.2 id true rfl (hone (by omega))
      simp [hzero]
    · have hcount : [e].count (.destroy id true) = 0 :=
        List.count_eq_zero.2 (by rw [List.mem_singleton]; exact fun h => he h.symm)
      rw [hcount, Nat.add_zero]
      exact ⟨hle, fun h1 => .inr ⟨fun h => hpost.2 h.symm, hone h1⟩⟩

theorem lifecycle_iff_notAfterDestroy (log : List Event) :
    Lifecycle log ↔ NotAfterDestroy log ∧
      ∀ file, .newFile file ∈ log → log.count (.deleteFile file) = 1 := by
  constructor
  · rintro ⟨-, h, hfile⟩
    exact ⟨h, hfile⟩
  · rintro ⟨h, hfile⟩
    refine ⟨?_, h, hfile⟩
    rintro id pre post rfl hpost
    have hsplit : pre ++ Event.create id :: post = (pre ++ [.create id]) ++ post := by simp
    rw [hsplit] at h
    exact (h.count_le hpost).1

/-! ### The object -/

/-- `int` values the driver can return that stop an enclave in the middle
(`common.h`). -/
def keystoneEnclaveInterrupted : BitVec 32 := 2#32
def keystoneEnclaveEdgeCallHost : BitVec 32 := 11#32

/-- The fields of `class Keystone` that decide what it destroys and deletes,
with the history of the object and the number of files made so far. -/
structure KeystoneObject where
  simulated : Bool
  runtimeFile : Option ℕ
  enclaveFile : Option ℕ
  eid : BitVec 32
  log : List Event
  files : ℕ
  deriving DecidableEq, Repr

namespace KeystoneObject

/-- `Keystone::Keystone`, with the default `Params`. -/
def initial : KeystoneObject :=
  { simulated := false, runtimeFile := none, enclaveFile := none, eid := -1#32, log := [],
    files := 0 }

def emit (s : KeystoneObject) (e : Event) : KeystoneObject := { s with log := s.log ++ [e] }

/-- `new ELFFile`. -/
def newFile (s : KeystoneObject) : ℕ × KeystoneObject :=
  (s.files, { s.emit (.newFile s.files) with files := s.files + 1 })

/-- `delete` of a file pointer, which does nothing on a null pointer. -/
def delete (s : KeystoneObject) : Option ℕ → KeystoneObject
  | none => s
  | some file => s.emit (.deleteFile file)

/-- Both files deleted and their pointers reset, in the order of `destroy` and
of the end of `init`. -/
def deleteFiles (s : KeystoneObject) : KeystoneObject :=
  { (s.delete s.enclaveFile).delete s.runtimeFile with enclaveFile := none, runtimeFile := none }

/-- The id that `destroy` and `run` put in their requests: an `int` stored in a
`__u64`. -/
def requestEid (s : KeystoneObject) : BitVec 64 := s.eid.signExtend 64

/-- `Keystone::destroy`; `ret` is the driver's answer. -/
def destroy (s : KeystoneObject) (ret : BitVec 32) : KeystoneStatus × KeystoneObject :=
  if 0 ≤ s.eid.toInt then
    let s := s.emit (.destroy s.requestEid (ret == 0#32))
    -- the files stay, and so does `eid`
    if ret ≠ 0#32 then (.keystoneError, s) else (.keystoneSuccess, s.deleteFiles)
  else
    (.keystoneSuccess, s.deleteFiles)

/-- `Keystone::~Keystone`: the two pointers are not reset before `destroy`. -/
def destructor (s : KeystoneObject) (ret : BitVec 32) : KeystoneObject :=
  (((s.delete s.runtimeFile).delete s.enclaveFile).destroy ret).2

/-- What the steps of one call of `init` answer: the two files, the driver, the
loader and `mmap`, and the driver again if `init` ends in `destroy`. -/
structure InitResults where
  simulated : Bool
  runtimeInitialized : Bool
  enclaveInitialized : Bool
  runtimeValid : Bool
  enclaveValid : Bool
  fd : BitVec 32
  createRet : BitVec 32
  createEid : BitVec 64
  loadRuntime : KeystoneStatus
  loadEnclave : KeystoneStatus
  initStack : KeystoneStatus
  utmInitRet : BitVec 32
  finalizeRet : BitVec 32
  mapUntrusted : KeystoneStatus
  destroyRet : BitVec 32

/-- `Keystone::initFiles`. -/
def initFiles (s : KeystoneObject) (r : InitResults) : Bool × KeystoneObject :=
  if s.runtimeFile.isSome || s.enclaveFile.isSome then
    (false, s)
  else
    let (runtimeFile, s) := s.newFile
    let s := { s with runtimeFile := some runtimeFile }
    let (enclaveFile, s) := s.newFile
    let s := { s with enclaveFile := some enclaveFile }
    if !r.runtimeInitialized then
      (false, (s.destroy r.destroyRet).2)
    else if !r.enclaveInitialized then
      (false, (s.destroy r.destroyRet).2)
    else if !r.runtimeValid then
      (false, (s.destroy r.destroyRet).2)
    else if !r.enclaveValid then
      (false, (s.destroy r.destroyRet).2)
    else
      (true, s)

/-- `Keystone::initDevice`. -/
def initDevice (s : KeystoneObject) (r : InitResults) : Bool :=
  s.simulated || decide (0 ≤ r.fd.toInt)

/-- The part of `Keystone::prepareEnclave` that creates the enclave. -/
def prepareEnclave (s : KeystoneObject) (r : InitResults) : Bool × KeystoneObject :=
  if s.simulated then
    (true, { s with eid := -1#32 })
  else if r.createRet ≠ 0#32 then
    (false, s)
  else
    (true, { s.emit (.create r.createEid) with eid := r.createEid.setWidth 32 })

/-- `Keystone::init`.  The result of `loadUntrusted` is not looked at. -/
def init (s : KeystoneObject) (r : InitResults) : KeystoneStatus × KeystoneObject :=
  let fail (s : KeystoneObject) := (KeystoneStatus.keystoneError, (s.destroy r.destroyRet).2)
  let s := { s with simulated := r.simulated }
  match s.initFiles r with
  | (false, s) => (.keystoneError, s)
  | (true, s) =>
    if !s.initDevice r then
      fail s
    else
      match s.prepareEnclave r with
      | (false, s) => fail s
      | (true, s) =>
        if r.loadRuntime ≠ .keystoneSuccess then
          fail s
        else if r.loadEnclave ≠ .keystoneSuccess then
          fail s
        else if r.initStack ≠ .keystoneSuccess then
          fail s
        else if !s.simulated && r.utmInitRet ≠ 0#32 then
          fail s
        else if !s.simulated && r.finalizeRet ≠ 0#32 then
          fail s
        else if !s.simulated && r.mapUntrusted ≠ .keystoneSuccess then
          fail s
        else
          (.keystoneSuccess, s.deleteFiles)

/-- An answer after which `run` resumes the enclave. -/
def stopped (ret : BitVec 32) : Bool :=
  ret == keystoneEnclaveEdgeCallHost || ret == keystoneEnclaveInterrupted

/-- The loop of `run` over the driver's answers: the one it ends with. -/
def runLoop : List (BitVec 32) → Option (BitVec 32)
  | [] => none
  | ret :: rets => if stopped ret then runLoop rets else some ret

/-- The answers to the requests of one call of `run` that returns. -/
structure RunResults where
  rets : List (BitVec 32)
  returns : (runLoop rets).isSome
  destroyRet : BitVec 32

def RunResults.ret (r : RunResults) : BitVec 32 := (runLoop r.rets).get r.returns

/-- `Keystone::run`. -/
def run (s : KeystoneObject) (r : RunResults) : KeystoneStatus × KeystoneObject :=
  if s.simulated then
    (.keystoneSuccess, s)
  else if r.ret ≠ 0#32 then
    (.keystoneError, (s.destroy r.destroyRet).2)
  else
    (.keystoneSuccess, s)

/-- A call on the object, with what its steps answer. -/
inductive Call
  | init (r : InitResults)
  | run (r : RunResults)
  | destroy (ret : BitVec 32)

def Call.apply (s : KeystoneObject) : Call → KeystoneObject
  | .init r => (s.init r).2
  | .run r => (s.run r).2
  | .destroy ret => (s.destroy ret).2

def afterCalls (s : KeystoneObject) (calls : List Call) : KeystoneObject :=
  calls.foldl Call.apply s

/-! ### When a call is in order -/

/-- `eid` names an enclave that has been destroyed. -/
def Gone (s : KeystoneObject) : Prop := 0 ≤ s.eid.toInt ∧ DestroyedAt s.log s.requestEid

/-- The answers with which `init` fails before it has set `eid`. -/
def InitResults.failsEarly (r : InitResults) : Bool :=
  !r.runtimeInitialized || !r.enclaveInitialized || !r.runtimeValid || !r.enclaveValid ||
    !r.simulated && (decide (r.fd.toInt < 0) || r.createRet != 0#32)

/-- The answers with which `init` fails after it has set `eid`, unless it has
failed before. -/
def InitResults.failsLate (r : InitResults) : Bool :=
  r.loadRuntime != .keystoneSuccess || r.loadEnclave != .keystoneSuccess ||
    r.initStack != .keystoneSuccess ||
    !r.simulated && (r.utmInitRet != 0#32 || r.finalizeRet != 0#32 ||
      r.mapUntrusted != .keystoneSuccess)

/-- The object once `init` has made its two files. -/
def opened (s : KeystoneObject) (r : InitResults) : KeystoneObject :=
  { s with
    simulated := r.simulated
    runtimeFile := some s.files
    enclaveFile := some (s.files + 1)
    log := s.log ++ [.newFile s.files] ++ [.newFile (s.files + 1)]
    files := s.files + 2 }

/-- The object once `prepareEnclave` has succeeded. -/
def prepared (s : KeystoneObject) (r : InitResults) : KeystoneObject :=
  if r.simulated then
    { s.opened r with eid := -1#32 }
  else
    { (s.opened r).emit (.create r.createEid) with eid := r.createEid.setWidth 32 }

/-- The id the driver gave does not fit `eid`, and what is left of it is the id
of an enclave that is gone. -/
def InitResults.CreatesGone (r : InitResults) (log : List Event) : Prop :=
  r.simulated = false ∧ 0 ≤ (r.createEid.setWidth 32).toInt ∧
    (r.createEid.setWidth 32).signExtend 64 ≠ r.createEid ∧
    DestroyedAt log ((r.createEid.setWidth 32).signExtend 64)

/-- No step of the call asks the driver to destroy an enclave that is gone: a
condition on the answers and on the object before the call. -/
def Call.InOrder (s : KeystoneObject) : Call → Prop
  | .init r =>
    s.runtimeFile = none → s.enclaveFile = none →
      (r.failsEarly = true → ¬ s.Gone) ∧
      (r.failsEarly = false → r.failsLate = true → ¬ r.CreatesGone s.log)
  | .run r => s.simulated = false → r.ret ≠ 0#32 → ¬ s.Gone
  | .destroy _ => ¬ s.Gone

/-- Every call of a sequence is in order at the object it is made on. -/
def InOrder (s : KeystoneObject) : List Call → Prop
  | [] => True
  | call :: calls => call.InOrder s ∧ InOrder (call.apply s) calls

/-- The destructor asks for no enclave that is gone, and `destroy` does not
delete a file the destructor has just deleted: there is none, or the driver
refuses and `destroy` returns before its deletions. -/
def DestructorInOrder (s : KeystoneObject) (ret : BitVec 32) : Prop :=
  ¬ s.Gone ∧
    ((s.runtimeFile = none ∧ s.enclaveFile = none) ∨ (0 ≤ s.eid.toInt ∧ ret ≠ 0#32))

/-! ### What the calls do -/

@[simp] theorem emit_log (s : KeystoneObject) (e : Event) : (s.emit e).log = s.log ++ [e] := rfl

theorem initFiles_open {s : KeystoneObject} (r : InitResults)
    (hruntime : s.runtimeFile = none) (henclave : s.enclaveFile = none) :
    ({ s with simulated := r.simulated } : KeystoneObject).initFiles r =
      if r.runtimeInitialized && r.enclaveInitialized && r.runtimeValid && r.enclaveValid then
        (true, s.opened r)
      else
        (false, ((s.opened r).destroy r.destroyRet).2) := by
  have hopen : (s.runtimeFile.isSome || s.enclaveFile.isSome) = false := by
    rw [hruntime, henclave]
    rfl
  unfold initFiles
  rw [if_neg (by rw [hopen]; exact Bool.false_ne_true)]
  cases r.runtimeInitialized
  · rfl
  cases r.enclaveInitialized
  · rfl
  cases r.runtimeValid
  · rfl
  cases r.enclaveValid
  · rfl
  rfl

theorem initDevice_opened (s : KeystoneObject) (r : InitResults) :
    (s.opened r).initDevice r = !(!r.simulated && decide (r.fd.toInt < 0)) := by
  show (r.simulated || decide (0 ≤ r.fd.toInt)) = _
  rcases Int.lt_or_le r.fd.toInt 0 with h | h
  · simp [h, Int.not_le.2 h]
  · simp [h, Int.not_lt.2 h]

theorem prepareEnclave_opened (s : KeystoneObject) (r : InitResults) :
    (s.opened r).prepareEnclave r =
      if !r.simulated && r.createRet != 0#32 then (false, s.opened r)
      else (true, s.prepared r) := by
  have hsim : (s.opened r).simulated = r.simulated := rfl
  unfold prepareEnclave prepared
  rw [hsim]
  cases hr : r.simulated
  · by_cases hret : r.createRet = 0#32
    · simp [hret]
    · simp [hret]
  · simp [hsim.trans hr]

theorem prepared_simulated (s : KeystoneObject) (r : InitResults) :
    (s.prepared r).simulated = r.simulated := by
  unfold prepared
  split <;> rfl

/-- The checks of `init` after `prepareEnclave`, as one. -/
theorem failsLate_chain {α : Type*} {sim : Bool} {r : InitResults} (hsim : sim = r.simulated)
    (x y : α) :
    (if r.loadRuntime ≠ .keystoneSuccess then x
      else if r.loadEnclave ≠ .keystoneSuccess then x
      else if r.initStack ≠ .keystoneSuccess then x
      else if !sim && r.utmInitRet ≠ 0#32 then x
      else if !sim && r.finalizeRet ≠ 0#32 then x
      else if !sim && r.mapUntrusted ≠ .keystoneSuccess then x
      else y) =
      if r.failsLate then x else y := by
  subst hsim
  unfold InitResults.failsLate
  by_cases hruntime : r.loadRuntime = .keystoneSuccess
  · by_cases henclave : r.loadEnclave = .keystoneSuccess
    · by_cases hstack : r.initStack = .keystoneSuccess
      · simp only [hruntime, henclave, hstack]
        cases r.simulated
        · simp only [Bool.not_false, Bool.true_and]
          grind
        · rfl
      · simp [hruntime, henclave, hstack]
    · simp [hruntime, henclave]
  · simp [hruntime]

theorem init_refused {s : KeystoneObject} (r : InitResults)
    (h : ¬ (s.runtimeFile = none ∧ s.enclaveFile = none)) :
    s.init r = (.keystoneError, { s with simulated := r.simulated }) := by
  have hopen : (s.runtimeFile.isSome || s.enclaveFile.isSome) = true := by
    rw [not_and_or, ← ne_eq, ← ne_eq, Option.ne_none_iff_isSome, Option.ne_none_iff_isSome] at h
    rwa [Bool.or_eq_true]
  unfold init initFiles
  simp only [hopen, if_true]

/-- What `init` leaves behind when it may open the files. -/
theorem init_open {s : KeystoneObject} (r : InitResults)
    (hruntime : s.runtimeFile = none) (henclave : s.enclaveFile = none) :
    (s.init r).2 =
      if r.failsEarly then ((s.opened r).destroy r.destroyRet).2
      else if r.failsLate then ((s.prepared r).destroy r.destroyRet).2
      else (s.prepared r).deleteFiles := by
  unfold init
  simp only [initFiles_open r hruntime henclave]
  cases hfiles : r.runtimeInitialized && r.enclaveInitialized && r.runtimeValid && r.enclaveValid
  · have hearly : r.failsEarly = true := by
      unfold InitResults.failsEarly
      revert hfiles
      cases r.runtimeInitialized <;> cases r.enclaveInitialized <;> cases r.runtimeValid <;>
        cases r.enclaveValid <;> simp
    rw [hearly]
    rfl
  · have hearly : r.failsEarly =
        (!r.simulated && (decide (r.fd.toInt < 0) || r.createRet != 0#32)) := by
      simp only [Bool.and_eq_true] at hfiles
      simp [InitResults.failsEarly, hfiles]
    rw [hearly]
    simp only [if_true, initDevice_opened, prepareEnclave_opened, Bool.not_not]
    cases hfd : !r.simulated && decide (r.fd.toInt < 0)
    · cases hcreate : !r.simulated && r.createRet != 0#32
      · rw [Bool.and_or_distrib_left, hfd, hcreate]
        simp only [Bool.or_false, Bool.false_eq_true, if_false]
        rw [failsLate_chain (prepared_simulated s r)]
        split <;> rfl
      · rw [Bool.and_or_distrib_left, hfd, hcreate]
        rfl
    · rw [Bool.and_or_distrib_left, hfd]
      rfl

/-! ### No enclave is destroyed twice -/

theorem notAfterDestroy_delete (s : KeystoneObject) (p : Option ℕ) :
    NotAfterDestroy (s.delete p).log ↔ NotAfterDestroy s.log := by
  cases p with
  | none => rfl
  | some file =>
    show NotAfterDestroy (s.log ++ [.deleteFile file]) ↔ _
    rw [notAfterDestroy_concat]
    exact and_iff_left fun _ _ h => nomatch h

theorem destroyedAt_delete (s : KeystoneObject) (p : Option ℕ) (id : BitVec 64) :
    DestroyedAt (s.delete p).log id ↔ DestroyedAt s.log id := by
  cases p with
  | none => rfl
  | some file =>
    show DestroyedAt (s.log ++ [.deleteFile file]) id ↔ _
    simp [destroyedAt_concat]

@[simp] theorem delete_eid (s : KeystoneObject) (p : Option ℕ) : (s.delete p).eid = s.eid := by
  cases p <;> rfl

theorem gone_delete (s : KeystoneObject) (p : Option ℕ) : (s.delete p).Gone ↔ s.Gone := by
  unfold Gone requestEid
  rw [destroyedAt_delete, delete_eid]

theorem notAfterDestroy_deleteFiles (s : KeystoneObject) :
    NotAfterDestroy s.deleteFiles.log ↔ NotAfterDestroy s.log := by
  show NotAfterDestroy ((s.delete s.enclaveFile).delete s.runtimeFile).log ↔ _
  rw [notAfterDestroy_delete, notAfterDestroy_delete]

/-- `destroy` keeps the history in order exactly when the enclave is not gone. -/
theorem notAfterDestroy_destroy (s : KeystoneObject) (ret : BitVec 32) :
    NotAfterDestroy (s.destroy ret).2.log ↔ NotAfterDestroy s.log ∧ ¬ s.Gone := by
  unfold destroy Gone
  by_cases heid : 0 ≤ s.eid.toInt
  · rw [if_pos heid]
    have hrequest : NotAfterDestroy (s.emit (.destroy s.requestEid (ret == 0#32))).log ↔
        NotAfterDestroy s.log ∧ ¬ DestroyedAt s.log s.requestEid := by
      rw [emit_log, notAfterDestroy_concat]
      refine and_congr_right fun _ => ⟨fun h => h _ _ rfl, ?_⟩
      rintro h id ok heq
      obtain ⟨rfl, -⟩ := Event.destroy.inj heq
      exact h
    by_cases hret : ret = 0#32
    · simp only [hret, ne_eq, not_true_eq_false, if_false]
      rw [notAfterDestroy_deleteFiles]
      subst hret
      rw [hrequest]
      simp [heid]
    · simp only [ne_eq, hret, not_false_eq_true, if_true]
      rw [hrequest]
      simp [heid]
  · rw [if_neg heid, notAfterDestroy_deleteFiles]
    simp [heid]

theorem notAfterDestroy_opened (s : KeystoneObject) (r : InitResults) :
    NotAfterDestroy (s.opened r).log ↔ NotAfterDestroy s.log := by
  show NotAfterDestroy (s.log ++ [_] ++ [_]) ↔ _
  rw [notAfterDestroy_concat, notAfterDestroy_concat]
  simp

theorem destroyedAt_opened (s : KeystoneObject) (r : InitResults) (id : BitVec 64) :
    DestroyedAt (s.opened r).log id ↔ DestroyedAt s.log id := by
  show DestroyedAt (s.log ++ [_] ++ [_]) id ↔ _
  rw [destroyedAt_concat, destroyedAt_concat]
  simp

theorem gone_opened (s : KeystoneObject) (r : InitResults) : (s.opened r).Gone ↔ s.Gone := by
  unfold Gone requestEid
  rw [destroyedAt_opened]
  rfl

theorem notAfterDestroy_prepared (s : KeystoneObject) (r : InitResults) :
    NotAfterDestroy (s.prepared r).log ↔ NotAfterDestroy s.log := by
  rw [← notAfterDestroy_opened s r]
  unfold prepared
  cases r.simulated
  · show NotAfterDestroy ((s.opened r).log ++ [_]) ↔ _
    simp [notAfterDestroy_concat]
  · rfl

theorem gone_prepared (s : KeystoneObject) (r : InitResults) :
    (s.prepared r).Gone ↔ r.CreatesGone s.log := by
  unfold prepared InitResults.CreatesGone Gone requestEid
  cases r.simulated
  · show _ ∧ DestroyedAt ((s.opened r).log ++ [_]) _ ↔ _
    rw [destroyedAt_concat, destroyedAt_opened]
    simp [eq_comm]
  · have hneg : ¬ 0 ≤ (-1#32).toInt := by decide
    exact ⟨fun h => absurd h.1 hneg, fun h => absurd h.1 (by simp)⟩

/-- A call keeps the history in order exactly when it is in order itself. -/
theorem notAfterDestroy_apply (s : KeystoneObject) (call : Call) :
    NotAfterDestroy (call.apply s).log ↔ NotAfterDestroy s.log ∧ call.InOrder s := by
  cases call with
  | init r =>
    show NotAfterDestroy (s.init r).2.log ↔ _ ∧ (_ → _ → _)
    by_cases hopen : s.runtimeFile = none ∧ s.enclaveFile = none
    · rw [init_open r hopen.1 hopen.2]
      cases hearly : r.failsEarly
      · cases hlate : r.failsLate
        · simp [notAfterDestroy_deleteFiles, notAfterDestroy_prepared]
        · simp [notAfterDestroy_destroy, notAfterDestroy_prepared, gone_prepared, hopen]
      · simp [notAfterDestroy_destroy, notAfterDestroy_opened, gone_opened, hopen]
    · rw [init_refused r hopen]
      exact (and_iff_left fun h1 h2 => absurd ⟨h1, h2⟩ hopen).symm
  | run r =>
    show NotAfterDestroy (s.run r).2.log ↔ _ ∧ (_ → _ → _)
    unfold run
    cases hsim : s.simulated
    · by_cases hret : r.ret = 0#32
      · simp [hret]
      · simp [hret, notAfterDestroy_destroy]
    · simp
  | destroy ret => exact notAfterDestroy_destroy s ret

/-- The whole run: the history stays in order exactly when every call is. -/
theorem notAfterDestroy_afterCalls (s : KeystoneObject) (calls : List Call) :
    NotAfterDestroy (s.afterCalls calls).log ↔ NotAfterDestroy s.log ∧ s.InOrder calls := by
  induction calls generalizing s with
  | nil => exact (and_iff_left trivial).symm
  | cons call calls ih =>
    show NotAfterDestroy ((call.apply s).afterCalls calls).log ↔ _ ∧ _ ∧ _
    rw [ih, notAfterDestroy_apply, and_assoc]

theorem notAfterDestroy_destructor (s : KeystoneObject) (ret : BitVec 32) :
    NotAfterDestroy (s.destructor ret).log ↔ NotAfterDestroy s.log ∧ ¬ s.Gone := by
  unfold destructor
  rw [notAfterDestroy_destroy, notAfterDestroy_delete, notAfterDestroy_delete, gone_delete,
    gone_delete]

/-! ### Every file is deleted once -/

/-- The object holds both files of its last `initFiles` or neither, and has
deleted every file it does not hold, once. -/
structure FilesOwned (s : KeystoneObject) : Prop where
  held : (s.runtimeFile = none ∧ s.enclaveFile = none) ∨
    ∃ n, s.runtimeFile = some n ∧ s.enclaveFile = some (n + 1) ∧ n + 1 < s.files
  made : ∀ file, .newFile file ∈ s.log ↔ file < s.files
  deleted : ∀ file, s.log.count (.deleteFile file) =
    if file < s.files ∧ s.runtimeFile ≠ some file ∧ s.enclaveFile ≠ some file then 1 else 0

theorem filesOwned_initial : initial.FilesOwned :=
  ⟨.inl ⟨rfl, rfl⟩, by simp [initial], by simp [initial]⟩

/-- An event that is not about a file leaves the files as they are, whatever
happens to `eid` and the parameters. -/
theorem FilesOwned.frame {s t : KeystoneObject} (h : s.FilesOwned)
    (hruntime : t.runtimeFile = s.runtimeFile) (henclave : t.enclaveFile = s.enclaveFile)
    (hfiles : t.files = s.files) (hnew : ∀ file, .newFile file ∈ t.log ↔ .newFile file ∈ s.log)
    (hdelete : ∀ file, t.log.count (.deleteFile file) = s.log.count (.deleteFile file)) :
    t.FilesOwned := by
  refine ⟨?_, fun file => ?_, fun file => ?_⟩
  · rw [hruntime, henclave, hfiles]
    exact h.held
  · rw [hnew, hfiles]
    exact h.made file
  · rw [hdelete, hruntime, henclave, hfiles]
    exact h.deleted file

/-- How deleting a file pointer changes the counts. -/
theorem count_delete (s : KeystoneObject) (p : Option ℕ) (file : ℕ) :
    (s.delete p).log.count (.deleteFile file) =
      s.log.count (.deleteFile file) + if p = some file then 1 else 0 := by
  cases p with
  | none => simp [delete]
  | some f =>
    show (s.log ++ [_]).count _ = _
    rw [List.count_append, List.count_singleton]
    simp

theorem mem_delete (s : KeystoneObject) (p : Option ℕ) (file : ℕ) :
    .newFile file ∈ (s.delete p).log ↔ .newFile file ∈ s.log := by
  cases p with
  | none => rfl
  | some f =>
    show _ ∈ s.log ++ [_] ↔ _
    simp

@[simp] theorem delete_files (s : KeystoneObject) (p : Option ℕ) :
    (s.delete p).files = s.files := by
  cases p <;> rfl

theorem FilesOwned.deleteFiles {s : KeystoneObject} (h : s.FilesOwned) :
    s.deleteFiles.FilesOwned := by
  have hfiles : s.deleteFiles.files = s.files := by
    show ((s.delete _).delete _).files = _
    rw [delete_files, delete_files]
  refine ⟨.inl ⟨rfl, rfl⟩, fun file => ?_, fun file => ?_⟩
  · rw [hfiles, ← h.made]
    show _ ∈ ((s.delete _).delete _).log ↔ _
    rw [mem_delete, mem_delete]
  · rw [hfiles]
    show ((s.delete s.enclaveFile).delete s.runtimeFile).log.count _ =
      if _ ∧ none ≠ _ ∧ none ≠ _ then 1 else 0
    rw [count_delete, count_delete, h.deleted]
    rcases h.held with ⟨h1, h2⟩ | ⟨n, h1, h2, hn⟩
    · simp [h1, h2]
    · rw [h1, h2]
      simp only [Option.some.injEq, ne_eq, reduceCtorEq, not_false_eq_true, and_true]
      split_ifs <;> omega

theorem FilesOwned.destroy {s : KeystoneObject} (h : s.FilesOwned) (ret : BitVec 32) :
    (s.destroy ret).2.FilesOwned := by
  unfold KeystoneObject.destroy
  by_cases heid : 0 ≤ s.eid.toInt
  · rw [if_pos heid]
    have hemit : (s.emit (.destroy s.requestEid (ret == 0#32))).FilesOwned :=
      h.frame rfl rfl rfl (by simp) (by simp)
    by_cases hret : ret = 0#32
    · simpa [hret] using hemit.deleteFiles
    · simpa [hret] using hemit
  · rw [if_neg heid]
    exact h.deleteFiles

theorem FilesOwned.opened {s : KeystoneObject} (h : s.FilesOwned) (r : InitResults)
    (hruntime : s.runtimeFile = none) (henclave : s.enclaveFile = none) :
    (s.opened r).FilesOwned := by
  refine ⟨.inr ⟨s.files, rfl, rfl, Nat.lt_succ_self _⟩, fun file => ?_, fun file => ?_⟩
  · show _ ∈ s.log ++ [_] ++ [_] ↔ _ < s.files + 2
    rw [List.mem_append, List.mem_append, h.made]
    simp only [List.mem_singleton, Event.newFile.injEq]
    omega
  · show (s.log ++ [_] ++ [_]).count _ =
      if _ < s.files + 2 ∧ some s.files ≠ _ ∧ some (s.files + 1) ≠ _ then 1 else 0
    rw [List.count_append, List.count_append, h.deleted, hruntime, henclave]
    simp only [List.count_singleton, ne_eq, reduceCtorEq, not_false_eq_true, and_true,
      Option.some.injEq]
    split_ifs <;> simp_all <;> omega

theorem FilesOwned.prepared {s : KeystoneObject} (h : s.FilesOwned) (r : InitResults)
    (hruntime : s.runtimeFile = none) (henclave : s.enclaveFile = none) :
    (s.prepared r).FilesOwned := by
  have hopened := h.opened r hruntime henclave
  unfold KeystoneObject.prepared
  cases r.simulated
  · exact hopened.frame rfl rfl rfl (by simp) (by simp)
  · exact hopened.frame rfl rfl rfl (fun _ => .rfl) fun _ => rfl

theorem FilesOwned.apply {s : KeystoneObject} (h : s.FilesOwned) (call : Call) :
    (call.apply s).FilesOwned := by
  cases call with
  | init r =>
    show (s.init r).2.FilesOwned
    by_cases hopen : s.runtimeFile = none ∧ s.enclaveFile = none
    · rw [init_open r hopen.1 hopen.2]
      split
      · exact (h.opened r hopen.1 hopen.2).destroy r.destroyRet
      · split
        · exact (h.prepared r hopen.1 hopen.2).destroy r.destroyRet
        · exact (h.prepared r hopen.1 hopen.2).deleteFiles
    · rw [init_refused r hopen]
      exact h.frame rfl rfl rfl (fun _ => .rfl) fun _ => rfl
  | run r =>
    show (s.run r).2.FilesOwned
    unfold run
    split
    · exact h
    · split
      · exact h.destroy r.destroyRet
      · exact h
  | destroy ret => exact h.destroy ret

theorem FilesOwned.afterCalls {s : KeystoneObject} (h : s.FilesOwned) (calls : List Call) :
    (s.afterCalls calls).FilesOwned := by
  induction calls generalizing s with
  | nil => exact h
  | cons call calls ih => exact ih (h.apply call)

/-- What the destructor's `destroy` adds to its own deletions. -/
theorem count_destroy (s : KeystoneObject) (ret : BitVec 32) (file : ℕ) :
    (s.destroy ret).2.log.count (.deleteFile file) =
      s.log.count (.deleteFile file) +
        if 0 ≤ s.eid.toInt ∧ ret ≠ 0#32 then 0
        else (if s.enclaveFile = some file then 1 else 0) +
          if s.runtimeFile = some file then 1 else 0 := by
  have hdelete : ∀ t : KeystoneObject, t.deleteFiles.log.count (.deleteFile file) =
      t.log.count (.deleteFile file) + ((if t.enclaveFile = some file then 1 else 0) +
        if t.runtimeFile = some file then 1 else 0) := by
    intro t
    show ((t.delete t.enclaveFile).delete t.runtimeFile).log.count _ = _
    rw [count_delete, count_delete, Nat.add_assoc]
  unfold destroy
  by_cases heid : 0 ≤ s.eid.toInt
  · rw [if_pos heid]
    by_cases hret : ret = 0#32
    · simp [hret, hdelete, emit]
    · simp [hret, heid]
  · rw [if_neg heid, hdelete]
    simp [heid]

theorem mem_destroy (s : KeystoneObject) (ret : BitVec 32) (file : ℕ) :
    .newFile file ∈ (s.destroy ret).2.log ↔ .newFile file ∈ s.log := by
  have hdelete : ∀ t : KeystoneObject,
      .newFile file ∈ t.deleteFiles.log ↔ .newFile file ∈ t.log := by
    intro t
    show _ ∈ ((t.delete t.enclaveFile).delete t.runtimeFile).log ↔ _
    rw [mem_delete, mem_delete]
  unfold destroy
  by_cases heid : 0 ≤ s.eid.toInt
  · rw [if_pos heid]
    by_cases hret : ret = 0#32
    · simp [hret, hdelete]
    · simp [hret]
  · rw [if_neg heid, hdelete]

@[simp] theorem delete_runtimeFile (s : KeystoneObject) (p : Option ℕ) :
    (s.delete p).runtimeFile = s.runtimeFile := by
  cases p <;> rfl

@[simp] theorem delete_enclaveFile (s : KeystoneObject) (p : Option ℕ) :
    (s.delete p).enclaveFile = s.enclaveFile := by
  cases p <;> rfl

/-- The destructor deletes every file exactly once when it holds none, or when
the driver makes its `destroy` return early. -/
theorem deletedOnce_destructor {s : KeystoneObject} (h : s.FilesOwned) (ret : BitVec 32) :
    (∀ file, .newFile file ∈ (s.destructor ret).log →
        (s.destructor ret).log.count (.deleteFile file) = 1) ↔
      (s.runtimeFile = none ∧ s.enclaveFile = none) ∨ (0 ≤ s.eid.toInt ∧ ret ≠ 0#32) := by
  have hmade : ∀ file, .newFile file ∈ (s.destructor ret).log ↔ file < s.files := by
    intro file
    unfold destructor
    rw [mem_destroy, mem_delete, mem_delete, h.made]
  have hcount : ∀ file, (s.destructor ret).log.count (.deleteFile file) =
      s.log.count (.deleteFile file) + (if s.runtimeFile = some file then 1 else 0) +
        (if s.enclaveFile = some file then 1 else 0) +
        if 0 ≤ s.eid.toInt ∧ ret ≠ 0#32 then 0
        else (if s.enclaveFile = some file then 1 else 0) +
          if s.runtimeFile = some file then 1 else 0 := by
    intro file
    unfold destructor
    simp only [count_destroy, count_delete, delete_eid, delete_runtimeFile, delete_enclaveFile]
  constructor
  · intro hone
    rcases h.held with hnone | ⟨n, h1, h2, hn⟩
    · exact .inl hnone
    · -- the runtime file is deleted by the destructor, so `destroy` must not do it again
      refine .inr ?_
      by_contra hearly
      have hn := hone n ((hmade n).2 (by omega))
      rw [hcount, if_neg hearly, h.deleted, h1, h2] at hn
      simp at hn
  · rintro hok file hfile
    rw [hmade] at hfile
    rw [hcount, h.deleted]
    rcases h.held with ⟨h1, h2⟩ | ⟨n, h1, h2, hn⟩
    · simp [h1, h2, hfile]
    · have hearly : 0 ≤ s.eid.toInt ∧ ret ≠ 0#32 :=
        hok.resolve_left fun hnone => by simp [h1] at hnone
      rw [if_pos hearly, h1, h2]
      simp only [Option.some.injEq, ne_eq, hfile, true_and]
      split_ifs <;> omega

end KeystoneObject

open KeystoneObject

/-- **The life of an object.**  Over every sequence of calls of `init`, `run`
and `destroy`, with any answers, ended by the destructor: its enclaves are
destroyed at most once and its files deleted exactly once precisely when every
call is in order at the object it is made on, and the destructor is. -/
theorem lifecycle_iff (calls : List Call) (ret : BitVec 32) :
    Lifecycle ((initial.afterCalls calls).destructor ret).log ↔
      initial.InOrder calls ∧ (initial.afterCalls calls).DestructorInOrder ret := by
  rw [lifecycle_iff_notAfterDestroy, notAfterDestroy_destructor, notAfterDestroy_afterCalls,
    deletedOnce_destructor (filesOwned_initial.afterCalls calls)]
  have hinitial : NotAfterDestroy initial.log := notAfterDestroy_nil
  unfold DestructorInOrder
  tauto

/-- The answers of an `init` that succeeds with enclave id 7. -/
def KeystoneObject.InitResults.succeeds : InitResults :=
  { simulated := false, runtimeInitialized := true, enclaveInitialized := true,
    runtimeValid := true, enclaveValid := true, fd := 3#32, createRet := 0#32,
    createEid := 7#64, loadRuntime := .keystoneSuccess, loadEnclave := .keystoneSuccess,
    initStack := .keystoneSuccess, utmInitRet := 0#32, finalizeRet := 0#32,
    mapUntrusted := .keystoneSuccess, destroyRet := 0#32 }

/-- `init` and `destroy` both succeed; the destructor destroys the enclave a
second time, since `destroy` has left its id in the object. -/
theorem lifecycle_fails_after_destroy :
    ¬ Lifecycle ((initial.afterCalls [.init .succeeds, .destroy 0#32]).destructor 0#32).log := by
  intro h
  have hlog : ((initial.afterCalls [.init .succeeds, .destroy 0#32]).destructor 0#32).log =
      [.newFile 0, .newFile 1, .create 7#64, .deleteFile 1, .deleteFile 0, .destroy 7#64 true,
        .destroy 7#64 true] := by decide
  rw [hlog] at h
  have hcount := h.destroyedOnce 7#64 [.newFile 0, .newFile 1]
    [.deleteFile 1, .deleteFile 0, .destroy 7#64 true, .destroy 7#64 true] rfl (by decide)
  revert hcount
  decide

end KeystoneSdk
