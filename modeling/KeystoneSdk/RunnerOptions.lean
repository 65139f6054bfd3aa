/-
The options of the test runner (`test-runner.cpp`, `enclave_options` of
`common.h`).

* `atoi`, `parse` — the conversion of an argument, and the loop over the options
  `getopt_long` returns;
* `parse_eq_ok_iff` — which sequences reach the end of the loop, and what it leaves;
* `lastArg`, `Independent` — every field has the value of the last occurrence of its
  own option;
* **`options_independent_iff`** — which sequences of options fit into the buffer of the
  file name and leave every field with its own value, and which neighbours can be
  exchanged.
-/
import KeystoneSdk.HexStream

open ByteMemory

namespace KeystoneSdk

/-! ### Arguments -/

def decimalValue (c : Byte) : Option ℕ := if 48 ≤ c ∧ c ≤ 57 then some (c.toNat - 48) else none

/-- The number the leading digits of a text stand for. -/
def leadingDecimal (s : Str) : ℕ :=
  ((s.map decimalValue).takeWhile Option.isSome).foldl (fun v d => 10 * v + d.getD 0) 0

/-- `atoi`: blanks and a sign are skipped, the number is cut to a `long` and then
to an `int`. -/
def atoi (s : Str) : BitVec 32 :=
  let s := s.dropWhile isSpace
  let n : Int :=
    match s with
    | 45 :: rest => -leadingDecimal rest
    | 43 :: rest => leadingDecimal rest
    | _ => leadingDecimal s
  BitVec.ofInt 32 (max (-2 ^ 63) (min n (2 ^ 63 - 1)))

/-- `(uint8_t) atoi(optarg)`. -/
def flag (s : Str) : BitVec 8 := (atoi s).setWidth 8

/-! ### The options -/

/-- `enclave_options`. -/
structure EnclaveOptions where
  pageFaultHandler : BitVec 32
  integrityProtection : BitVec 8
  confidentiality : BitVec 8
  numFreePages : BitVec 32
  victimCache : BitVec 8
  pageAddrTracing : BitVec 8
  debugMode : BitVec 8
  treeExc : BitVec 8
  faultLimit : BitVec 32

/-- The defaults `main` sets before it parses. -/
def EnclaveOptions.default : EnclaveOptions where
  pageFaultHandler := 0
  integrityProtection := 1
  confidentiality := 1
  numFreePages := 15
  victimCache := 0
  pageAddrTracing := 0
  debugMode := 0
  treeExc := 0
  faultLimit := 0

/-- What `getopt_long` returns: an entry of `long_opts`, or `'?'`. -/
inductive RunnerOption
  | pfHandler
  | integrity
  | confidentiality
  | freePages
  | victimCache
  | tracing
  | debug
  | file
  | treeExc
  | faultLimit
  | help
  | unknown
  deriving DecidableEq

open RunnerOption

/-- An option with its argument `optarg`. -/
abbrev OptionArg := RunnerOption × Str

/-- `sizeof(fn)`. -/
def sizeofFn : ℕ := 100

/-- `args_user` and the local `fn`, a string with its terminator. -/
@[ext] structure Runner where
  argsUser : EnclaveOptions
  fn : Str
  fn_lt : fn.length < sizeofFn

/-- Why the loop is not left. -/
inductive RunnerEnd
  /-- `print_usage` exits. -/
  | usage
  /-- `strcpy` writes behind `fn`. -/
  | overrun
  deriving DecidableEq

/-- One round of the loop. -/
def Runner.parseOption (s : Runner) (x : OptionArg) : Except RunnerEnd Runner :=
  let u := s.argsUser
  match x.1 with
  | pfHandler => .ok { s with argsUser := { u with pageFaultHandler := atoi x.2 } }
  | integrity => .ok { s with argsUser := { u with integrityProtection := flag x.2 } }
  | confidentiality => .ok { s with argsUser := { u with confidentiality := flag x.2 } }
  | freePages => .ok { s with argsUser := { u with numFreePages := atoi x.2 } }
  | victimCache =>
    -- there is no `break` before the next case
    .ok { s with argsUser := { u with victimCache := flag x.2, pageAddrTracing := flag x.2 } }
  | tracing => .ok { s with argsUser := { u with pageAddrTracing := flag x.2 } }
  | debug => .ok { s with argsUser := { u with debugMode := flag x.2 } }
  | file =>
    -- the length is not checked, and what lies behind `fn` is overwritten
    if h : x.2.length < sizeofFn then .ok { s with fn := x.2, fn_lt := h } else .error .overrun
  | treeExc => .ok { s with argsUser := { u with treeExc := flag x.2 } }
  | faultLimit => .ok { s with argsUser := { u with faultLimit := atoi x.2 } }
  | help => .error .usage
  | unknown => .error .usage

/-- The loop of `main`. -/
def parse (options : List OptionArg) : Except RunnerEnd Runner :=
  options.foldlM Runner.parseOption ⟨EnclaveOptions.default, [], by decide⟩

/-! ### Independence -/

/-- The argument of the last option among `os`. -/
def lastArg (os : List RunnerOption) (options : List OptionArg) : Option Str :=
  ((options.filter fun x => x.1 ∈ os).map Prod.snd).getLast?

/-- Each field has the converted value of the last occurrence of its own option, or
its default. -/
structure Independent (options : List OptionArg) (u : EnclaveOptions) : Prop where
  pageFaultHandler : u.pageFaultHandler =
    ((lastArg [pfHandler] options).map atoi).getD EnclaveOptions.default.pageFaultHandler
  integrityProtection : u.integrityProtection =
    ((lastArg [integrity] options).map flag).getD EnclaveOptions.default.integrityProtection
  confidentiality : u.confidentiality =
    ((lastArg [confidentiality] options).map flag).getD EnclaveOptions.default.confidentiality
  numFreePages : u.numFreePages =
    ((lastArg [freePages] options).map atoi).getD EnclaveOptions.default.numFreePages
  victimCache : u.victimCache =
    ((lastArg [victimCache] options).map flag).getD EnclaveOptions.default.victimCache
  pageAddrTracing : u.pageAddrTracing =
    ((lastArg [tracing] options).map flag).getD EnclaveOptions.default.pageAddrTracing
  debugMode : u.debugMode =
    ((lastArg [debug] options).map flag).getD EnclaveOptions.default.debugMode
  treeExc : u.treeExc = ((lastArg [treeExc] options).map flag).getD EnclaveOptions.default.treeExc
  faultLimit : u.faultLimit =
    ((lastArg [faultLimit] options).map atoi).getD EnclaveOptions.default.faultLimit

/-- Every file name fits into `fn`. -/
def FilesFit (options : List OptionArg) : Prop :=
  ∀ x ∈ options, x.1 = file → x.2.length < sizeofFn

/-- The option is one of the two that set `page_addr_tracing`. -/
abbrev SetsTracing (x : OptionArg) : Prop := x.1 ∈ [victimCache, tracing]

/-- A victim cache option that no later option overrides repeats the value of the
last tracing option, or its default. -/
def Agrees (options : List OptionArg) : Prop :=
  ∀ before a after, options = before ++ (victimCache, a) :: after →
    (∀ x ∈ after, ¬ SetsTracing x) →
      flag a = ((lastArg [tracing] before).map flag).getD EnclaveOptions.default.pageAddrTracing

/-! ### The last occurrence -/

theorem lastArg_append (os : List RunnerOption) (l l' : List OptionArg) :
    lastArg os (l ++ l') = (lastArg os l').or (lastArg os l) := by
  rw [lastArg, List.filter_append, List.map_append, List.getLast?_append]
  rfl

theorem lastArg_singleton (os : List RunnerOption) (x : OptionArg) :
    lastArg os [x] = if x.1 ∈ os then some x.2 else none := by
  by_cases hx : x.1 ∈ os
  · simp [lastArg, hx]
  · simp [lastArg, hx]

theorem lastArg_eq_none_iff (os : List RunnerOption) (options : List OptionArg) :
    lastArg os options = none ↔ ∀ x ∈ options, x.1 ∉ os := by
  simp [lastArg]

/-- The last of the options looked for, or of an option that is not. -/
theorem lastArg_split {os : List RunnerOption} (before : List OptionArg) (x : OptionArg)
    {after : List OptionArg} (hafter : ∀ y ∈ after, y.1 ∉ os) :
    lastArg os (before ++ x :: after) = if x.1 ∈ os then some x.2 else lastArg os before := by
  rw [show x :: after = [x] ++ after from rfl, lastArg_append, lastArg_append,
    (lastArg_eq_none_iff os after).mpr hafter, Option.none_or, lastArg_singleton]
  split
  · rfl
  · rfl

/-- Either option of a neighbouring pair may come first if it is not the one looked
for. -/
theorem lastArg_swap {os : List RunnerOption} {a b : OptionArg} (hab : ¬ (a.1 ∈ os ∧ b.1 ∈ os))
    (before after : List OptionArg) :
    lastArg os (before ++ a :: b :: after) = lastArg os (before ++ b :: a :: after) := by
  rw [show a :: b :: after = [a] ++ [b] ++ after from rfl,
    show b :: a :: after = [b] ++ [a] ++ after from rfl, lastArg_append, lastArg_append,
    lastArg_append, lastArg_append, lastArg_append, lastArg_append, lastArg_singleton,
    lastArg_singleton]
  by_cases ha : a.1 ∈ os
  · rw [if_neg fun hb => hab ⟨ha, hb⟩, Option.none_or, Option.or_none]
  · rw [if_neg ha, Option.none_or, Option.or_none]

/-- What the loop leaves: each field has the value of the last option that sets it. -/
def result (options : List OptionArg) : EnclaveOptions where
  pageFaultHandler :=
    ((lastArg [pfHandler] options).map atoi).getD EnclaveOptions.default.pageFaultHandler
  integrityProtection :=
    ((lastArg [integrity] options).map flag).getD EnclaveOptions.default.integrityProtection
  confidentiality :=
    ((lastArg [confidentiality] options).map flag).getD EnclaveOptions.default.confidentiality
  numFreePages :=
    ((lastArg [freePages] options).map atoi).getD EnclaveOptions.default.numFreePages
  victimCache := ((lastArg [victimCache] options).map flag).getD EnclaveOptions.default.victimCache
  pageAddrTracing :=
    ((lastArg [victimCache, tracing] options).map flag).getD EnclaveOptions.default.pageAddrTracing
  debugMode := ((lastArg [debug] options).map flag).getD EnclaveOptions.default.debugMode
  treeExc := ((lastArg [treeExc] options).map flag).getD EnclaveOptions.default.treeExc
  faultLimit := ((lastArg [faultLimit] options).map atoi).getD EnclaveOptions.default.faultLimit

/-- The last file name. -/
def lastFile (options : List OptionArg) : Str := (lastArg [file] options).getD []

theorem lastFile_lt {options : List OptionArg} (hfit : FilesFit options) :
    (lastFile options).length < sizeofFn := by
  rcases hlast : lastArg [file] options with _ | s
  · rw [lastFile, hlast]
    decide
  · rw [lastFile, hlast]
    obtain ⟨x, hx, rfl⟩ := List.mem_map.mp (List.mem_of_getLast? hlast)
    obtain ⟨hmem, hfile⟩ := List.mem_filter.mp hx
    exact hfit x hmem (List.mem_singleton.mp (of_decide_eq_true hfile))

/-- The option prints the usage and exits. -/
abbrev Exits (x : OptionArg) : Prop := x.1 ∈ [help, unknown]

/-- A round goes on unless the option exits or is a file name that does not fit. -/
theorem parseOption_eq_ok_iff {options : List OptionArg} {s : Runner}
    (hargs : s.argsUser = result options) (hfn : s.fn = lastFile options) (x : OptionArg)
    (r : Runner) :
    s.parseOption x = .ok r ↔ ¬ Exits x ∧ (x.1 = file → x.2.length < sizeofFn) ∧
      r.argsUser = result (options ++ [x]) ∧ r.fn = lastFile (options ++ [x]) := by
  obtain ⟨u, fn, hlt⟩ := s
  obtain ⟨u', fn', hlt'⟩ := r
  obtain rfl : u = result options := hargs
  obtain rfl : fn = lastFile options := hfn
  obtain ⟨o, a⟩ := x
  cases o with
  | file =>
    have hrest : result (options ++ [(file, a)]) = result options := by
      simp [result, lastArg_append, lastArg_singleton]
    have hfile : lastFile (options ++ [(file, a)]) = a := by
      simp [lastFile, lastArg_append, lastArg_singleton]
    rw [hrest, hfile]
    by_cases ha : a.length < sizeofFn
    · simp [Runner.parseOption, ha, eq_comm]
    · simp [Runner.parseOption, ha]
  | help => simp [Runner.parseOption]
  | unknown => simp [Runner.parseOption]
  | _ =>
    simp [Runner.parseOption, result, lastFile, lastArg_append, lastArg_singleton, eq_comm]

theorem parse_append_singleton (options : List OptionArg) (x : OptionArg) :
    parse (options ++ [x]) = parse options >>= fun s => s.parseOption x := by
  rw [parse, List.foldlM_append]
  exact bind_congr fun s => bind_pure _

/-- **The loop is left** with the result, unless it meets an option that exits or a file name
that does not fit. -/
theorem parse_eq_ok_iff (options : List OptionArg) (r : Runner) :
    parse options = .ok r ↔ (∀ x ∈ options, ¬ Exits x) ∧ FilesFit options ∧
      r.argsUser = result options ∧ r.fn = lastFile options := by
  induction options using List.reverseRecOn generalizing r with
  | nil =>
    have hstart : parse [] = .ok ⟨result [], lastFile [], by decide⟩ := rfl
    rw [hstart, Except.ok.injEq, Runner.ext_iff]
    simp [FilesFit, eq_comm]
  | append_singleton options x ih =>
    have hfit : FilesFit (options ++ [x]) ↔
        FilesFit options ∧ (x.1 = file → x.2.length < sizeofFn) := by
      rw [FilesFit, List.forall_mem_append, List.forall_mem_singleton]
      rfl
    rw [parse_append_singleton, hfit, List.forall_mem_append, List.forall_mem_singleton]
    constructor
    · intro hr
      rcases hparse : parse options with e | s
      · rw [hparse] at hr
        cases hr
      · obtain ⟨hends, hfits, hargs, hfn⟩ := (ih s).mp hparse
        rw [hparse] at hr
        obtain ⟨hx, hxfit, hresult⟩ := (parseOption_eq_ok_iff hargs hfn x r).mp hr
        exact ⟨⟨hends, hx⟩, ⟨hfits, hxfit⟩, hresult⟩
    · rintro ⟨⟨hends, hx⟩, ⟨hfits, hxfit⟩, hresult⟩
      have hparse := (ih ⟨result options, lastFile options, lastFile_lt hfits⟩).mpr
        ⟨hends, hfits, rfl, rfl⟩
      rw [hparse]
      exact (parseOption_eq_ok_iff rfl rfl x r).mpr ⟨hx, hxfit, hresult⟩

/-! ### Which sequences are independent -/

/-- The last option that sets the tracing, if there is one. -/
theorem last_setsTracing (options : List OptionArg) :
    (∀ x ∈ options, ¬ SetsTracing x) ∨
      ∃ before x after, options = before ++ x :: after ∧ SetsTracing x ∧
        ∀ y ∈ after, ¬ SetsTracing y := by
  induction options using List.reverseRecOn with
  | nil => exact .inl fun x hx => absurd hx List.not_mem_nil
  | append_singleton options x ih =>
    by_cases hx : SetsTracing x
    · exact .inr ⟨options, x, [], rfl, hx, fun y hy => absurd hy List.not_mem_nil⟩
    · obtain hnone | ⟨before, y, after, rfl, hy, hafter⟩ := ih
      · exact .inl (List.forall_mem_append.mpr ⟨hnone, List.forall_mem_singleton.mpr hx⟩)
      · refine .inr ⟨before, y, after ++ [x], ?_, hy, ?_⟩
        · rw [List.append_assoc, List.cons_append]
        · exact List.forall_mem_append.mpr ⟨hafter, List.forall_mem_singleton.mpr hx⟩

/-- The tracing options after a split that none of them follows. -/
theorem lastArg_tracing_split (before : List OptionArg) (x : OptionArg) {after : List OptionArg}
    (hafter : ∀ y ∈ after, ¬ SetsTracing y) :
    lastArg [tracing] (before ++ x :: after) =
      if x.1 ∈ [tracing] then some x.2 else lastArg [tracing] before :=
  lastArg_split before x fun y hy ht =>
    hafter y hy (List.mem_cons_of_mem _ ht)

/-- The last option that sets the tracing has the value of the last tracing option iff
no victim cache option, with another value, is the last. -/
theorem agrees_iff (options : List OptionArg) :
    Agrees options ↔
      ((lastArg [victimCache, tracing] options).map flag).getD
          EnclaveOptions.default.pageAddrTracing =
        ((lastArg [tracing] options).map flag).getD EnclaveOptions.default.pageAddrTracing := by
  constructor
  · intro hagrees
    obtain hnone | ⟨before, ⟨o, a⟩, after, rfl, hx, hafter⟩ := last_setsTracing options
    · have htracing : ∀ x ∈ options, x.1 ∉ [tracing] := fun x hx ht =>
        hnone x hx (List.mem_cons_of_mem _ ht)
      rw [(lastArg_eq_none_iff _ _).mpr hnone, (lastArg_eq_none_iff _ _).mpr htracing]
    · rw [lastArg_split before _ hafter, if_pos hx, lastArg_tracing_split before _ hafter]
      obtain rfl | ho := List.mem_cons.mp hx
      · rw [if_neg (by simp)]
        exact hagrees before a after rfl hafter
      · rw [if_pos ho]
  · rintro hvalues before a after rfl hafter
    have hvictim : SetsTracing (victimCache, a) := List.mem_cons_self
    rw [lastArg_split before _ hafter, if_pos hvictim, lastArg_tracing_split before _ hafter,
      if_neg (by simp)] at hvalues
    exact hvalues

/-- The tracing two neighbours leave does not depend on their order iff they do not both
set it, or something behind them does, or they set the same value. -/
theorem tracing_swap_iff {a b : OptionArg} (before after : List OptionArg) :
    ((lastArg [victimCache, tracing] (before ++ b :: a :: after)).map flag).getD
        EnclaveOptions.default.pageAddrTracing =
      ((lastArg [victimCache, tracing] (before ++ a :: b :: after)).map flag).getD
        EnclaveOptions.default.pageAddrTracing ↔
      ¬ (SetsTracing a ∧ SetsTracing b) ∨ (∃ x ∈ after, SetsTracing x) ∨ flag a.2 = flag b.2 := by
  by_cases hboth : SetsTracing a ∧ SetsTracing b
  · by_cases hafter : ∃ x ∈ after, SetsTracing x
    · -- what comes later decides
      have hlast : ∃ v, lastArg [victimCache, tracing] after = some v := by
        refine Option.ne_none_iff_exists'.mp fun hnone => ?_
        obtain ⟨x, hx, hset⟩ := hafter
        exact (lastArg_eq_none_iff _ _).mp hnone x hx hset
      obtain ⟨v, hv⟩ := hlast
      have hsplit : ∀ x y : OptionArg, lastArg [victimCache, tracing] (before ++ x :: y :: after) =
          some v := by
        intro x y
        rw [show before ++ x :: y :: after = (before ++ [x, y]) ++ after by simp, lastArg_append, hv,
          Option.some_or]
      rw [hsplit, hsplit]
      exact iff_of_true rfl (.inr (.inl hafter))
    · -- the second of the two decides
      have hsplit : ∀ x y : OptionArg, SetsTracing y →
          lastArg [victimCache, tracing] (before ++ x :: y :: after) = some y.2 := by
        intro x y hy
        rw [show before ++ x :: y :: after = (before ++ [x]) ++ y :: after by simp,
          lastArg_split _ _ fun z hz hset => hafter ⟨z, hz, hset⟩, if_pos hy]
      rw [hsplit b a hboth.1, hsplit a b hboth.2, or_iff_right (not_not.mpr hboth),
        or_iff_right hafter]
      rfl
  · rw [lastArg_swap hboth]
    exact iff_of_true rfl (.inl hboth)

/-- **Which options are independent**: after a sequence the fields have the values of
their own options iff every file name fits into its buffer and no victim cache option,
with another value, comes after the last tracing option; and two neighbours can be
exchanged iff they do not both set the tracing, or a later option does, or they set the
same value. -/
theorem options_independent_iff (options : List OptionArg) (hends : ∀ x ∈ options, ¬ Exits x) :
    ((∃ r, parse options = .ok r ∧ Independent options r.argsUser) ↔
      FilesFit options ∧ Agrees options) ∧
    ∀ before a b after, options = before ++ a :: b :: after → a.1 ≠ b.1 →
      ((∃ r, parse options = .ok r ∧ parse (before ++ b :: a :: after) = .ok r) ↔
        FilesFit options ∧ (¬ (SetsTracing a ∧ SetsTracing b) ∨ (∃ x ∈ after, SetsTracing x) ∨
          flag a.2 = flag b.2)) := by
  constructor
  · rw [agrees_iff]
    constructor
    · rintro ⟨r, hr, hindependent⟩
      obtain ⟨-, hfit, hargs, -⟩ := (parse_eq_ok_iff options r).mp hr
      have htracing := hindependent.pageAddrTracing
      rw [hargs] at htracing
      exact ⟨hfit, htracing⟩
    · rintro ⟨hfit, htracing⟩
      refine ⟨⟨result options, lastFile options, lastFile_lt hfit⟩,
        (parse_eq_ok_iff options _).mpr ⟨hends, hfit, rfl, rfl⟩, ?_⟩
      exact ⟨rfl, rfl, rfl, rfl, rfl, htracing, rfl, rfl, rfl⟩
  · rintro before a b after rfl hab
    have hmem : ∀ x, x ∈ before ++ b :: a :: after ↔ x ∈ before ++ a :: b :: after := by
      intro x
      simp only [List.mem_append, List.mem_cons]
      tauto
    have hends' : ∀ x ∈ before ++ b :: a :: after, ¬ Exits x := fun x hx =>
      hends x ((hmem x).mp hx)
    have hfit' : FilesFit (before ++ b :: a :: after) ↔ FilesFit (before ++ a :: b :: after) :=
      forall_congr' fun x => by rw [hmem x]
    -- every option but two sets a field of its own
    have hown : ∀ o, lastArg [o] (before ++ a :: b :: after) =
        lastArg [o] (before ++ b :: a :: after) := by
      intro o
      refine lastArg_swap (fun h => hab ?_) before after
      rw [List.mem_singleton.mp h.1, List.mem_singleton.mp h.2]
    rw [← tracing_swap_iff]
    constructor
    · rintro ⟨r, hr, hr'⟩
      obtain ⟨-, hfit, hargs, -⟩ := (parse_eq_ok_iff _ r).mp hr
      obtain ⟨-, -, hargs', -⟩ := (parse_eq_ok_iff _ r).mp hr'
      exact ⟨hfit, congrArg (·.pageAddrTracing) (hargs'.symm.trans hargs)⟩
    · rintro ⟨hfit, htracing⟩
      refine ⟨⟨result _, lastFile _, lastFile_lt hfit⟩,
        (parse_eq_ok_iff _ _).mpr ⟨hends, hfit, rfl, rfl⟩,
        (parse_eq_ok_iff _ _).mpr ⟨hends', hfit'.mpr hfit, ?_, ?_⟩⟩
      · simp only [result, hown, htracing]
      · simp only [lastFile, hown]

/-- The page addresses are traced although tracing is turned off. -/
theorem victimCache_traces :
    ∃ r, parse [(tracing, str "0"), (victimCache, str "1")] = .ok r ∧
      ¬ Independent [(tracing, str "0"), (victimCache, str "1")] r.argsUser := by
  refine ⟨_, rfl, fun h => ?_⟩
  have htracing := h.pageAddrTracing
  revert htracing
  decide

theorem options_independent_iff_last :
    (∃ r, parse [(victimCache, str "1"), (tracing, str "0"), (file, str "trace")] = .ok r ∧
      Independent [(victimCache, str "1"), (tracing, str "0"), (file, str "trace")] r.argsUser) ∧
    ¬ ∃ r, parse [(victimCache, str "1"), (tracing, str "0"), (file, str "trace")] = .ok r ∧
      parse [(tracing, str "0"), (victimCache, str "1"), (file, str "trace")] = .ok r := by
  have hiff := options_independent_iff
    [(victimCache, str "1"), (tracing, str "0"), (file, str "trace")] (by decide)
  constructor
  · refine hiff.1.mpr ⟨?_, ?_⟩
    · unfold FilesFit
      decide
    · rw [agrees_iff]
      decide
  · intro hswap
    obtain ⟨-, hexchange⟩ := (hiff.2 [] _ _ [(file, str "trace")] rfl (by decide)).mp hswap
    revert hexchange
    decide

end KeystoneSdk
