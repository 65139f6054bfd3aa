/-
The tokens of the `json11` parser against the grammar.

A run of the parser is described by what is left of the text: `P.cursor s t` is
the parser `s` with its index in front of the suffix `t`.

* `exec_charAt`, `exec_advance`, … — one access each;
* `Failed` — what a failed token leaves behind: the first error, and an index
  inside the text;
* `ends_consumeGarbage`, `ends_parseString`, `ends_parseNumber` — each token
  ends as the grammar says, or fails where the grammar has none.
-/
import KeystoneSdk.JsonGrammar
import KeystoneSdk.Returning

open ByteMemory StopM

namespace KeystoneSdk

namespace JsonInput

variable {P : JsonInput} {s s' s'' : JsonParser} {t u r : Str} {α β : Type}

/-! ### The text behind the index -/

variable (P) in
/-- The parser in front of `t`, a suffix of the text. -/
def cursor (s : JsonParser) (t : Str) : JsonParser := { s with i := P.text.length - t.length }

@[simp] theorem cursor_failed : (P.cursor s t).failed = s.failed := rfl

theorem drop_cursor (ht : t <:+ P.text) : P.text.drop (P.cursor s t).i = t := by
  obtain ⟨w, hw⟩ := ht
  have hi : (P.cursor s t).i = w.length := by
    show P.text.length - t.length = _
    rw [← hw, List.length_append, Nat.add_sub_cancel]
  rw [hi, ← hw, List.drop_left]

theorem cursor_i_add (ht : t <:+ P.text) : (P.cursor s t).i + t.length = P.text.length := by
  have hle := ht.length_le
  show P.text.length - t.length + t.length = _
  omega

theorem exec_charAt (ht : t <:+ P.text) {n : ℕ} (hn : n ≤ t.length) :
    exec (P.charAt n) (P.cursor s t) = (.ok (t.getD n 0), P.cursor s t) := by
  have hi := cursor_i_add (s := s) ht
  have hget : P.text.getD ((P.cursor s t).i + n) 0 = t.getD n 0 := by
    have hdrop := congrArg (·[n]?) (drop_cursor (s := s) ht)
    simp only [List.getElem?_drop] at hdrop
    rw [List.getD_eq_getElem?_getD, List.getD_eq_getElem?_getD, hdrop]
  rw [charAt, exec_bind_ok (exec_get _), if_pos (by omega), exec_pure, hget]

theorem exec_charAt_zero (ht : t <:+ P.text) :
    exec (P.charAt 0) (P.cursor s t) = (.ok (t.headD 0), P.cursor s t) := by
  rw [exec_charAt ht (Nat.zero_le _)]
  cases t <;> rfl

theorem exec_advance {w : Str} {n : ℕ} (hn : w.length = n) (ht : w ++ t <:+ P.text) :
    exec (advance n) (P.cursor s (w ++ t)) = (.ok ⟨⟩, P.cursor s t) := by
  have hle := ht.length_le
  rw [List.length_append] at hle
  rw [advance, exec_modify]
  refine congrArg _ (JsonParser.ext ?_ rfl rfl)
  show P.text.length - (w ++ t).length + n = P.text.length - t.length
  rw [List.length_append]
  omega

theorem exec_advance_one {c : Byte} (ht : c :: t <:+ P.text) :
    exec (advance 1) (P.cursor s (c :: t)) = (.ok ⟨⟩, P.cursor s t) :=
  exec_advance (w := [c]) rfl ht

theorem exec_next {c : Byte} (ht : c :: t <:+ P.text) :
    exec P.next (P.cursor s (c :: t)) = (.ok c, P.cursor s t) := by
  rw [next, exec_bind_ok (exec_charAt_zero ht), exec_bind_ok (exec_advance_one ht), exec_pure]
  rfl

theorem exec_back {c : Byte} (ht : c :: t <:+ P.text) :
    exec back (P.cursor s t) = (.ok ⟨⟩, P.cursor s (c :: t)) := by
  have hle : t.length + 1 ≤ P.text.length := ht.length_le
  have hi : (P.cursor s t).i = P.text.length - t.length := rfl
  rw [back, exec_bind_ok (exec_get _), if_neg (by omega), exec_set]
  refine congrArg _ (JsonParser.ext ?_ rfl rfl)
  show P.text.length - t.length - 1 = P.text.length - (t.length + 1)
  omega

theorem exec_atEnd (ht : t <:+ P.text) :
    exec P.atEnd (P.cursor s t) = (.ok (decide (t = [])), P.cursor s t) := by
  have hi := cursor_i_add (s := s) ht
  have hend : (P.cursor s t).i = P.text.length ↔ t = [] := by
    rw [← List.length_eq_zero_iff]
    omega
  rw [atEnd, exec_bind_ok (exec_get _), exec_pure, decide_eq_decide.mpr hend]

theorem exec_substr (ht : t <:+ P.text) (n : ℕ) :
    exec (P.substr n) (P.cursor s t) = (.ok (t.take n), P.cursor s t) := by
  have hi := cursor_i_add (s := s) ht
  rw [substr, exec_bind_ok (exec_get _), if_pos (by omega), exec_pure, drop_cursor ht]

theorem exec_pastLastTwo (ht : t <:+ P.text) (hsize : 2 ≤ P.text.length) :
    exec P.pastLastTwo (P.cursor s t) = (.ok (decide (t.length < 2)), P.cursor s t) := by
  have hi := cursor_i_add (s := s) ht
  have hpast : (2 ≤ P.text.length && P.text.length - 2 < (P.cursor s t).i : Bool) =
      decide (t.length < 2) := by
    rw [decide_eq_true hsize, Bool.true_and, decide_eq_decide]
    omega
  rw [pastLastTwo, exec_bind_ok (exec_get _), exec_pure, hpast]

/-! ### Failures -/

variable (P) in
/-- After a failure: the index is inside the text, and the error is the first. -/
structure Failed (s s' : JsonParser) : Prop where
  inside : s'.i ≤ P.text.length
  failed : s'.failed = true
  first : s.failed = true → s'.err = s.err
  message : s.failed = false → s'.err ≠ []

theorem Failed.trans (h : P.Failed s s') (h' : P.Failed s' s'') : P.Failed s s'' where
  inside := h'.inside
  failed := h'.failed
  first := fun hs => (h'.first h.failed).trans (h.first hs)
  message := fun hs => by rw [h'.first h.failed]; exact h.message hs

/-- A failed parser may still move. -/
theorem Failed.cursor (hs : s.failed = true) : P.Failed s (P.cursor s t) where
  inside := Nat.sub_le ..
  failed := hs
  first := fun _ => rfl
  message := fun h => absurd (hs.symm.trans h) Bool.noConfusion

theorem returns_fail_value {msg : Str} (hmsg : msg ≠ []) (a : α) :
    Returns (fail msg a) (P.cursor s t) fun b s' => b = a ∧ P.Failed s s' := by
  rw [fail, returns_bind, returns_modify, returns_pure]
  refine ⟨rfl, Nat.sub_le .., rfl, fun hs => ?_, fun hs => ?_⟩
  · show (if s.failed then s.err else msg) = s.err
    rw [hs, if_pos rfl]
  · show (if s.failed then s.err else msg) ≠ []
    rw [hs, if_neg Bool.false_ne_true]
    exact hmsg

theorem returns_fail {msg : Str} (hmsg : msg ≠ []) (a : α) :
    Returns (fail msg a) (P.cursor s t) fun _ s' => P.Failed s s' :=
  (returns_fail_value hmsg a).mono fun _ _ h => h.2

variable (P) in
/-- A token in front of `t` ends as `o` says: with a value in front of what is
left, or with a failure. -/
def Ends (m : ParserM α) (s : JsonParser) (t : Str) : Option (α × Str) → Prop
  | some (a, r) => exec m (P.cursor s t) = (.ok a, P.cursor s r)
  | none => Returns m (P.cursor s t) fun _ s' => P.Failed s s'

/-- A token that starts with something that goes from `t` to `u`. -/
theorem Ends.of_exec {m m' : ParserM α} {o : Option (α × Str)}
    (h : exec m (P.cursor s t) = exec m' (P.cursor s u)) (hm : P.Ends m' s u o) :
    P.Ends m s t o := by
  cases o with
  | none =>
    obtain ⟨a, s', hexec, hfailed⟩ := hm
    exact ⟨a, s', h.trans hexec, hfailed⟩
  | some p => exact h.trans hm

/-! ### Runs of characters -/

theorem dropWhile_suffix_text (ht : t <:+ P.text) (test : Byte → Bool) :
    t.dropWhile test <:+ P.text := (List.dropWhile_suffix test).trans ht

/-- A loop over the characters of a kind goes to the first of another kind. -/
theorem exec_skipWhile {test : Byte → Bool} (h0 : test 0 = false) {fuel : ℕ}
    (hfuel : t.length < fuel) (ht : t <:+ P.text) :
    exec (P.skipWhile test fuel) (P.cursor s t) = (.ok ⟨⟩, P.cursor s (t.dropWhile test)) := by
  -- each round takes a character off the text, and the fuel is longer than that
  induction fuel generalizing t with
  | zero => omega
  | succ fuel ih =>
    rw [skipWhile, exec_bind_ok (exec_charAt_zero ht)]
    cases t with
    | nil =>
      have hend : ¬ test (([] : Str).headD 0) = true := by
        rw [List.headD_nil, h0]
        exact Bool.false_ne_true
      rw [if_neg hend]
      rfl
    | cons c t =>
      have hlen : t.length + 1 < fuel + 1 := hfuel
      by_cases hc : test c = true
      · rw [List.headD_cons, if_pos hc, exec_bind_ok (exec_advance_one ht),
          ih (by omega) ((List.suffix_cons c t).trans ht), List.dropWhile_cons_of_pos hc]
      · rw [List.headD_cons, if_neg hc, List.dropWhile_cons_of_neg hc]
        rfl

theorem lt_loopFuel (ht : t <:+ P.text) : t.length < P.loopFuel :=
  Nat.lt_succ_of_le (ht.length_le.trans (Nat.le_succ _))

theorem exec_consumeWhitespace (ht : t <:+ P.text) :
    exec P.consumeWhitespace (P.cursor s t) = (.ok ⟨⟩, P.cursor s (t.dropWhile isBlank)) :=
  exec_skipWhile (by decide) (lt_loopFuel ht) ht

theorem cursor_drop (hi : s.i ≤ P.text.length) : P.cursor s (P.text.drop s.i) = s := by
  refine JsonParser.ext ?_ rfl rfl
  show P.text.length - (P.text.drop s.i).length = s.i
  rw [List.length_drop]
  omega

/-! ### Comments -/

theorem exec_inlineLoop {fuel : ℕ} (hfuel : t.length < fuel) (ht : t <:+ P.text) :
    exec (P.inlineLoop fuel) (P.cursor s t) = (.ok ⟨⟩, P.cursor s (t.dropWhile (· ≠ 10))) := by
  induction fuel generalizing t with
  | zero => omega
  | succ fuel ih =>
    have hi := cursor_i_add (s := s) ht
    rw [inlineLoop, exec_bind_ok (exec_get _)]
    cases t with
    | nil =>
      -- the end of the text ends the comment too
      rw [List.length_nil, Nat.add_zero] at hi
      exact congrArg (exec · _) (if_pos hi.ge)
    | cons c t =>
      have hlen : t.length + 1 < fuel + 1 := hfuel
      have hin : ¬ P.text.length ≤ (P.cursor s (c :: t)).i := by
        rw [List.length_cons] at hi
        omega
      rw [if_neg hin, exec_bind_ok (exec_charAt_zero ht), List.headD_cons]
      by_cases hc : c = 10
      · rw [if_pos hc, List.dropWhile_cons_of_neg (by simpa using hc)]
        rfl
      · rw [if_neg hc, exec_bind_ok (exec_advance_one ht),
          ih (by omega) ((List.suffix_cons c t).trans ht),
          List.dropWhile_cons_of_pos (by simpa using hc)]

/-- The test for the closing characters looks ahead only behind a `*`. -/
theorem exec_closesComment {c d : Byte} (ht : c :: d :: t <:+ P.text) :
    exec P.closesComment (P.cursor s (c :: d :: t)) =
      (.ok (decide (c = 42 ∧ d = 47)), P.cursor s (c :: d :: t)) := by
  rw [closesComment, exec_bind_ok (exec_charAt_zero ht), List.headD_cons]
  by_cases hc : c = 42
  · rw [if_pos hc, exec_bind_ok (exec_charAt ht (by simp)), exec_pure]
    simp [hc]
  · rw [if_neg hc, exec_pure, decide_eq_false fun h => hc h.1]

/-- The loop of a multiline comment stops in front of the first `*` with a `/`
behind it, or fails. -/
theorem ends_multilineLoop {fuel : ℕ} (hfuel : t.length < fuel) (ht : t <:+ P.text)
    (hlen : 2 ≤ t.length) :
    (∀ u, afterClose t = some u →
      exec (P.multilineLoop fuel) (P.cursor s t) = (.ok true, P.cursor s (42 :: 47 :: u)) ∧
        42 :: 47 :: u <:+ t) ∧
    (afterClose t = none → Returns (P.multilineLoop fuel) (P.cursor s t) fun b s' =>
      b = false ∧ P.Failed s s') := by
  -- there are two characters to look at in every round: the loop tests that before it goes on
  induction fuel generalizing t with
  | zero => omega
  | succ fuel ih =>
    have hsize : 2 ≤ P.text.length := hlen.trans ht.length_le
    rcases t with _ | ⟨c, _ | ⟨d, t⟩⟩
    · exact absurd hlen (by decide)
    · exact absurd hlen (by simp)
    have hsuffix : d :: t <:+ P.text := (List.suffix_cons c (d :: t)).trans ht
    have hrun : exec (P.multilineLoop (fuel + 1)) (P.cursor s (c :: d :: t)) =
        exec (if c = 42 ∧ d = 47 then (pure true : ParserM Bool) else do
          advance 1
          let past ← P.pastLastTwo
          if past then fail (str "unexpected end of input inside multi-line comment") false
          else P.multilineLoop fuel) (P.cursor s (c :: d :: t)) := by
      rw [multilineLoop, exec_bind_ok (exec_closesComment ht)]
      simp only [decide_eq_true_eq]
    by_cases hclose : c = 42 ∧ d = 47
    · rw [if_pos hclose, exec_pure] at hrun
      have hafter : afterClose (c :: d :: t) = some t := if_pos hclose
      rw [hafter]
      refine ⟨fun u hu => ?_, fun h => absurd h (Option.some_ne_none t)⟩
      cases hu
      obtain ⟨rfl, rfl⟩ := hclose
      exact ⟨hrun, List.suffix_rfl⟩
    · have hafter : afterClose (c :: d :: t) = afterClose (d :: t) := if_neg hclose
      rw [if_neg hclose, exec_bind_ok (exec_advance_one ht),
        exec_bind_ok (exec_pastLastTwo hsuffix hsize)] at hrun
      rw [hafter]
      by_cases hend : (d :: t).length < 2
      · -- one character is left, and no comment ends in it
        have hnil : t = [] := List.length_eq_zero_iff.mp (by rw [List.length_cons] at hend; omega)
        subst hnil
        have hnone : afterClose [d] = none := if_neg (by simp)
        rw [decide_eq_true hend, if_pos rfl] at hrun
        rw [hnone]
        refine ⟨fun u hu => absurd hu.symm (Option.some_ne_none u), fun _ => ?_⟩
        obtain ⟨b, s', hfail, hfailed⟩ := returns_fail_value (P := P) (s := s) (t := [d])
          (by decide : str "unexpected end of input inside multi-line comment" ≠ []) false
        exact ⟨b, s', hrun.trans hfail, hfailed⟩
      · rw [decide_eq_false hend, if_neg Bool.false_ne_true] at hrun
        obtain ⟨hsome, hnone⟩ := ih (t := d :: t) (by
          have : (c :: d :: t).length < fuel + 1 := hfuel
          rw [List.length_cons] at this
          omega) hsuffix (by omega)
        refine ⟨fun u hu => ?_, fun h => ?_⟩
        · obtain ⟨hexec, hu⟩ := hsome u hu
          exact ⟨hrun.trans hexec, hu.trans (List.suffix_cons c (d :: t))⟩
        · obtain ⟨b, s', hexec, hfailed⟩ := hnone h
          exact ⟨b, s', hrun.trans hexec, hfailed⟩

/-- What `consume_comment` does in front of `t`: how it ends where there is no
comment, and where there is one. -/
theorem exec_consumeComment_none (ht : t <:+ P.text) (h : t.headD 0 ≠ 47) :
    exec P.consumeComment (P.cursor s t) = (.ok false, P.cursor s t) := by
  rw [consumeComment, exec_bind_ok (exec_charAt_zero ht), if_neg h, exec_pure]

theorem exec_consumeComment_inline (ht : 47 :: 47 :: t <:+ P.text) :
    exec P.consumeComment (P.cursor s (47 :: 47 :: t)) =
      (.ok true, P.cursor s (t.dropWhile (· ≠ 10))) := by
  have ht' : 47 :: t <:+ P.text := (List.suffix_cons _ _).trans ht
  have ht'' : t <:+ P.text := (List.suffix_cons _ _).trans ht'
  have hnonempty : ¬ decide ((47 : Byte) :: t = []) = true := by simp
  rw [consumeComment, exec_bind_ok (exec_charAt_zero ht), List.headD_cons, if_pos rfl,
    exec_bind_ok (exec_advance_one ht), exec_bind_ok (exec_atEnd ht'), if_neg hnonempty,
    exec_bind_ok (exec_charAt_zero ht'), List.headD_cons, if_pos rfl,
    exec_bind_ok (exec_advance_one ht'), exec_bind_ok (exec_inlineLoop (lt_loopFuel ht'') ht''),
    exec_pure]

theorem exec_consumeComment_multiline (ht : 47 :: 42 :: t <:+ P.text) (h : afterClose t = some u) :
    exec P.consumeComment (P.cursor s (47 :: 42 :: t)) = (.ok true, P.cursor s u) ∧ u <:+ t := by
  have ht' : 42 :: t <:+ P.text := (List.suffix_cons _ _).trans ht
  have ht'' : t <:+ P.text := (List.suffix_cons _ _).trans ht'
  have hnonempty : ¬ decide ((42 : Byte) :: t = []) = true := by simp
  have hsize : 2 ≤ P.text.length := le_trans (by simp) ht.length_le
  -- a closed comment has two characters behind its start, so that `pastLastTwo` does not stop it
  have hlen : 2 ≤ t.length := by
    rcases t with _ | ⟨c, _ | ⟨d, t⟩⟩
    · cases h
    · rw [afterClose, if_neg (by simp)] at h
      cases h
    · simp
  obtain ⟨hloop, hu⟩ := (ends_multilineLoop (s := s) (lt_loopFuel ht'') ht'' hlen).1 u h
  have hadvance : exec (advance 2) (P.cursor s (42 :: 47 :: u)) = (.ok ⟨⟩, P.cursor s u) :=
    exec_advance (w := [42, 47]) rfl (hu.trans ht'')
  refine ⟨?_, (List.suffix_append [42, 47] u).trans hu⟩
  rw [consumeComment, exec_bind_ok (exec_charAt_zero ht), List.headD_cons, if_pos rfl,
    exec_bind_ok (exec_advance_one ht), exec_bind_ok (exec_atEnd ht'), if_neg hnonempty,
    exec_bind_ok (exec_charAt_zero ht'), List.headD_cons, if_neg (by decide), if_pos rfl,
    exec_bind_ok (exec_advance_one ht'), exec_bind_ok (exec_pastLastTwo ht'' hsize),
    decide_eq_false (Nat.not_lt.mpr hlen), if_neg Bool.false_ne_true, exec_bind_ok hloop,
    if_pos rfl, exec_bind_ok hadvance, exec_pure]

/-- A slash that starts no comment is an error. -/
theorem returns_consumeComment_bad (ht : 47 :: t <:+ P.text) (hinline : t.headD 0 ≠ 47)
    (hmultiline : ∀ w, t = 42 :: w → afterClose w = none) :
    Returns P.consumeComment (P.cursor s (47 :: t)) fun _ s' => P.Failed s s' := by
  have ht' : t <:+ P.text := (List.suffix_cons _ _).trans ht
  rw [consumeComment, returns_bind_exec (exec_charAt_zero ht), List.headD_cons, if_pos rfl,
    returns_bind_exec (exec_advance_one ht), returns_bind_exec (exec_atEnd ht')]
  -- nothing behind the slash, a comment without an end, and no comment at all
  by_cases hnil : t = []
  · rw [decide_eq_true hnil, if_pos rfl]
    exact returns_fail (by decide) _
  · rw [decide_eq_false hnil, if_neg Bool.false_ne_true, returns_bind_exec (exec_charAt_zero ht'),
      if_neg hinline]
    by_cases hstar : t.headD 0 = 42
    · obtain ⟨w, rfl⟩ : ∃ w, t = 42 :: w := by
        cases t with
        | nil => exact absurd rfl hnil
        | cons c w => exact ⟨w, congrArg (· :: w) hstar⟩
      have hw : w <:+ P.text := (List.suffix_cons _ _).trans ht'
      have hsize : 2 ≤ P.text.length := le_trans (by simp) ht.length_le
      rw [if_pos hstar, returns_bind_exec (exec_advance_one ht'),
        returns_bind_exec (exec_pastLastTwo hw hsize)]
      by_cases hlen : w.length < 2
      · rw [decide_eq_true hlen, if_pos rfl]
        exact returns_fail (by decide) _
      · rw [decide_eq_false hlen, if_neg Bool.false_ne_true]
        have hloop := (ends_multilineLoop (s := s) (lt_loopFuel hw) hw (by omega)).2
          (hmultiline w rfl)
        refine hloop.bind fun b s' h => ?_
        rw [h.1, if_neg Bool.false_ne_true, returns_pure]
        exact h.2
    · rw [if_neg hstar]
      exact returns_fail (by decide) _

/-- `consume_comment` ends where a comment does. -/
theorem ends_consumeComment (ht : t <:+ P.text) : P.Ends P.consumeComment s t (comment t) := by
  by_cases hslash : t.headD 0 = 47
  · obtain ⟨w, rfl⟩ := exists_cons_of_headD (by decide) hslash
    by_cases hinline : w.headD 0 = 47
    · obtain ⟨x, rfl⟩ := exists_cons_of_headD (by decide) hinline
      exact exec_consumeComment_inline ht
    · have hbad := returns_consumeComment_bad (s := s) ht hinline
      by_cases hmultiline : w.headD 0 = 42
      · obtain ⟨x, rfl⟩ := exists_cons_of_headD (by decide) hmultiline
        have hcomment : comment (47 :: 42 :: x) = (afterClose x).map (true, ·) := rfl
        rw [hcomment]
        cases hafter : afterClose x with
        | none => exact hbad fun y hy => by cases hy; exact hafter
        | some u => exact (exec_consumeComment_multiline ht hafter).1
      · have hcomment : comment (47 :: w) = none := by
          have hhead : ¬ (47 :: w).headD 0 ≠ 47 := not_not.mpr rfl
          rw [comment, if_neg hhead, List.tail_cons, if_neg hinline, if_neg hmultiline]
        rw [hcomment]
        exact hbad fun x hx => absurd (congrArg (·.headD 0) hx) hmultiline
  · rw [comment, if_pos hslash]
    exact exec_consumeComment_none ht hslash

/-! ### Garbage -/

/-- The loop over comments, in front of a text that starts with no blank. -/
theorem ends_commentLoop (hstrategy : P.strategy = .COMMENTS) (hs : s.failed = false) {fuel : ℕ}
    (hfuel : t.length < fuel) (ht : t <:+ P.text) (hblank : isBlank (t.headD 0) = false) :
    (∃ u, Garbage P.strategy t u ∧
      exec (P.commentLoop fuel) (P.cursor s t) = (.ok ⟨⟩, P.cursor s u)) ∨
    (∀ u, ¬ Garbage P.strategy t u) ∧
      Returns (P.commentLoop fuel) (P.cursor s t) fun _ s' => P.Failed s s' := by
  -- a round that finds a comment makes the text shorter; one that finds none stops the loop
  induction fuel generalizing t with
  | zero => omega
  | succ fuel ih =>
    have hcomment := ends_consumeComment (s := s) ht
    cases h : comment t with
    | none =>
      rw [h] at hcomment
      refine Or.inr ⟨fun u hu => not_garbage_of_comment hstrategy hblank h hu, ?_⟩
      rw [commentLoop]
      refine Returns.bind hcomment fun b s' hfailed => ?_
      rw [returns_bind_exec (exec_get s'), if_pos hfailed.failed, returns_pure]
      exact hfailed
    | some o =>
      obtain ⟨found, w⟩ := o
      rw [h] at hcomment
      have hnot : ¬ (P.cursor s w).failed = true := by
        rw [cursor_failed, hs]
        exact Bool.false_ne_true
      have hw : w <:+ t := comment_suffix h
      have hstart : exec (P.commentLoop (fuel + 1)) (P.cursor s t) =
          exec (if found then P.commentLoop fuel else pure ())
            (P.cursor s (w.dropWhile isBlank)) := by
        rw [commentLoop, exec_bind_ok hcomment, exec_bind_ok (exec_get _), if_neg hnot,
          exec_bind_ok (exec_consumeWhitespace (hw.trans ht))]
      cases found with
      | false =>
        obtain ⟨hslash, rfl⟩ := comment_false h
        rw [dropWhile_of_headD hblank] at hstart
        exact Or.inl ⟨t, .stop hblank fun _ => hslash, hstart⟩
      | true =>
        have hlt : w.length < t.length := comment_true_length h
        have hdrop : (w.dropWhile isBlank).length ≤ w.length :=
          (List.dropWhile_suffix _).length_le
        have hiff := fun u => garbage_comment hstrategy h (v := u)
        rcases ih (t := w.dropWhile isBlank) (by omega) ((List.dropWhile_suffix _).trans
          (hw.trans ht)) (headD_dropWhile_blank w) with ⟨u, hu, hexec⟩ | ⟨hno, hret⟩
        · exact Or.inl ⟨u, (hiff u).mpr hu, hstart.trans hexec⟩
        · refine Or.inr ⟨fun u hu => hno u ((hiff u).mp hu), ?_⟩
          obtain ⟨a, s', hexec, hfailed⟩ := hret
          exact ⟨a, s', hstart.trans hexec, hfailed⟩

/-- `consume_garbage` goes behind the garbage, or fails where there is no end of it. -/
theorem ends_consumeGarbage (hs : s.failed = false) (ht : t <:+ P.text) :
    (∃ u, Garbage P.strategy t u ∧
      exec P.consumeGarbage (P.cursor s t) = (.ok ⟨⟩, P.cursor s u)) ∨
    (∀ u, ¬ Garbage P.strategy t u) ∧
      Returns P.consumeGarbage (P.cursor s t) fun _ s' => P.Failed s s' := by
  have ht' := dropWhile_suffix_text ht isBlank
  have hstart : exec P.consumeGarbage (P.cursor s t) =
      exec (if P.strategy = .COMMENTS then P.commentLoop P.loopFuel else pure ())
        (P.cursor s (t.dropWhile isBlank)) := by
    rw [consumeGarbage, exec_bind_ok (exec_consumeWhitespace ht)]
  by_cases hstrategy : P.strategy = .COMMENTS
  · rw [if_pos hstrategy] at hstart
    rcases ends_commentLoop hstrategy hs (lt_loopFuel ht') ht' (headD_dropWhile_blank t) with
      ⟨u, hu, hexec⟩ | ⟨hno, a, s', hexec, hfailed⟩
    · exact Or.inl ⟨u, garbage_dropWhile.mpr hu, hstart.trans hexec⟩
    · exact Or.inr ⟨fun u hu => hno u (garbage_dropWhile.mp hu), a, s', hstart.trans hexec, hfailed⟩
  · rw [if_neg hstrategy] at hstart
    exact Or.inl ⟨_, garbage_dropWhile.mpr (.stop (headD_dropWhile_blank t) (absurd · hstrategy)),
      hstart⟩

/-- A failed parser may still move over garbage. -/
theorem returns_consumeGarbage_failed (hs : s.failed = true) (ht : t <:+ P.text) :
    Returns P.consumeGarbage (P.cursor s t) fun _ s' => P.Failed s s' := by
  have ht' := dropWhile_suffix_text ht isBlank
  rw [consumeGarbage, returns_bind_exec (exec_consumeWhitespace ht)]
  by_cases hstrategy : P.strategy = .COMMENTS
  · have hcomment := ends_consumeComment (s := s) ht'
    rw [if_pos hstrategy, loopFuel, commentLoop]
    -- the loop stops after its first comment, found or not
    cases h : comment (t.dropWhile isBlank) with
    | none =>
      rw [h] at hcomment
      refine Returns.bind hcomment fun b s' hfailed => ?_
      rw [returns_bind_exec (exec_get s'), if_pos hfailed.failed, returns_pure]
      exact hfailed
    | some o =>
      rw [h] at hcomment
      have hfailed : (P.cursor s o.2).failed = true := hs
      rw [returns_bind_exec hcomment, returns_bind_exec (exec_get _), if_pos hfailed, returns_pure]
      exact .cursor hs
  · rw [if_neg hstrategy, returns_pure]
    exact .cursor hs

/-- `get_next_token`. -/
theorem ends_getNextToken (hs : s.failed = false) (ht : t <:+ P.text) :
    (∃ c u, Token P.strategy t c u ∧ exec P.getNextToken (P.cursor s t) = (.ok c, P.cursor s u)) ∨
    (∀ c u, ¬ Token P.strategy t c u) ∧
      Returns P.getNextToken (P.cursor s t) fun c s' => c = 0 ∧ P.Failed s s' := by
  rcases ends_consumeGarbage hs ht with ⟨u, hu, hexec⟩ | ⟨hno, hret⟩
  · have hu' : u <:+ P.text := hu.suffix.trans ht
    have hnot : ¬ (P.cursor s u).failed = true := by
      rw [cursor_failed, hs]
      exact Bool.false_ne_true
    cases u with
    | nil =>
      -- garbage up to the end: by its uniqueness no token is behind it
      refine Or.inr ⟨fun c v hv => ?_, ?_⟩
      · exact List.cons_ne_nil c v (Garbage.unique hv hu)
      · rw [getNextToken, returns_bind_exec hexec, returns_bind_exec (exec_get _), if_neg hnot,
          returns_bind_exec (exec_atEnd hu'), decide_eq_true rfl, if_pos rfl]
        exact returns_fail_value (by decide) _
    | cons c u =>
      refine Or.inl ⟨c, u, hu, ?_⟩
      rw [getNextToken, exec_bind_ok hexec, exec_bind_ok (exec_get _), if_neg hnot,
        exec_bind_ok (exec_atEnd hu'), decide_eq_false (List.cons_ne_nil c u),
        if_neg Bool.false_ne_true, exec_next hu']
  · refine Or.inr ⟨fun c v hv => hno _ hv, ?_⟩
    rw [getNextToken]
    refine Returns.bind hret fun _ s' hfailed => ?_
    rw [returns_bind_exec (exec_get s'), if_pos hfailed.failed, returns_pure]
    exact ⟨rfl, hfailed⟩

/-! ### Strings -/

variable (P) in
/-- A loop over the characters of a string ends behind it, or fails. -/
def StringEnds (m : ParserM Str) (s : JsonParser) (t out : Str) (last : ℤ) : Prop :=
  (∃ us r, StringBody t us r ∧
    exec m (P.cursor s t) = (.ok (out ++ decodeAfter last us), P.cursor s r)) ∨
  (∀ us r, ¬ StringBody t us r) ∧ Returns m (P.cursor s t) fun _ s' => P.Failed s s'

/-- One iteration that reads the unit `u` and goes on. -/
theorem StringEnds.step {m m' : ParserM Str} {t' out out' : Str} {last last' : ℤ} {v : JsonUnit}
    (hexec : exec m (P.cursor s t) = exec m' (P.cursor s t'))
    (hbody : ∀ us r, StringBody t us r ↔ ∃ us', us = v :: us' ∧ StringBody t' us' r)
    (hout : ∀ us, out ++ decodeAfter last (v :: us) = out' ++ decodeAfter last' us)
    (h : P.StringEnds m' s t' out' last') : P.StringEnds m s t out last := by
  rcases h with ⟨us, r, hus, hm⟩ | ⟨hno, a, s', hm, hfailed⟩
  · exact Or.inl ⟨v :: us, r, (hbody _ r).mpr ⟨us, rfl, hus⟩, by rw [hexec, hm, hout]⟩
  · refine Or.inr ⟨fun us r hus => ?_, a, s', hexec.trans hm, hfailed⟩
    obtain ⟨us', -, hus'⟩ := (hbody us r).mp hus
    exact hno us' r hus'

/-- An iteration that fails. -/
theorem StringEnds.bad {m : ParserM Str} {u out msg : Str} {last : ℤ} {a : Str} (hmsg : msg ≠ [])
    (hexec : exec m (P.cursor s t) = exec (fail msg a) (P.cursor s u))
    (hno : ∀ us r, ¬ StringBody t us r) : P.StringEnds m s t out last := by
  obtain ⟨b, s', hm, hfailed⟩ := returns_fail (P := P) (s := s) (t := u) hmsg a
  exact Or.inr ⟨hno, b, s', hexec.trans hm, hfailed⟩

/-- The escape of a number. -/
theorem stringEnds_unicodeEscape {loop : Str → ℤ → ParserM Str} (ht : t <:+ P.text) {out : Str}
    {last : ℤ} (ih : ∀ out last, P.StringEnds (loop out last) s (t.drop 4) out last)
    {m : ParserM Str} (hm : exec m (P.cursor s (92 :: 117 :: t)) =
      exec (P.unicodeEscape loop out last) (P.cursor s t)) :
    P.StringEnds m s (92 :: 117 :: t) out last := by
  have hmsg : str "bad \\u escape: " ++ t.take 4 ≠ [] :=
    List.append_ne_nil_of_left_ne_nil (by decide) _
  rw [unicodeEscape, exec_bind_ok (exec_substr ht 4)] at hm
  by_cases hlen : (t.take 4).length < 4
  · rw [if_pos hlen] at hm
    refine .bad hmsg hm fun us r h => ?_
    have hfour := (stringBody_code.mp h).1
    rw [List.length_take] at hlen
    omega
  · have hfour : (t.take 4).length = 4 := by
      rw [List.length_take] at hlen ⊢
      omega
    rw [if_neg hlen] at hm
    -- four characters: digits, or an error that names them
    by_cases hdigits : (t.take 4).all isHexDigit = true
    · have hadvance : exec (advance 4) (P.cursor s t) = (.ok ⟨⟩, P.cursor s (t.drop 4)) := by
        have h := exec_advance (P := P) (s := s) hfour (t := t.drop 4)
          (by rw [List.take_append_drop]; exact ht)
        rwa [List.take_append_drop] at h
      have hbody : ∀ us r, StringBody (92 :: 117 :: t) us r ↔
          ∃ us', us = .code (leadingHex (t.take 4)) :: us' ∧ StringBody (t.drop 4) us' r := by
        intro us r
        have hle : 4 ≤ t.length := by
          rw [List.length_take] at hfour
          omega
        rw [stringBody_code]
        exact ⟨fun h => h.2.2, fun h => ⟨hle, List.all_eq_true.mp hdigits, h⟩⟩
      rw [if_neg (not_not.mpr hdigits), exec_bind_ok hadvance] at hm
      -- both branches go on behind the digits, with other bytes and another code in hand
      by_cases hpair : surrogates last (leadingHex (t.take 4)) = true
      · rw [if_pos hpair] at hm
        exact .step hm hbody (fun us => by rw [decodeAfter_code, if_pos hpair]) (ih _ _)
      · rw [if_neg hpair] at hm
        exact .step hm hbody (fun us => by rw [decodeAfter_code, if_neg hpair]) (ih _ _)
    · rw [if_pos hdigits] at hm
      refine .bad hmsg hm fun us r h => ?_
      exact hdigits (List.all_eq_true.mpr (stringBody_code.mp h).2.1)

/-- What follows a backslash. -/
theorem stringEnds_escapeSequence {loop : Str → ℤ → ParserM Str} (ht : t <:+ P.text) {out : Str}
    {last : ℤ} (ih : ∀ u, u <:+ t → ∀ out last, P.StringEnds (loop out last) s u out last)
    {m : ParserM Str} (hm : exec m (P.cursor s (92 :: t)) =
      exec (P.escapeSequence loop out last) (P.cursor s t)) :
    P.StringEnds m s (92 :: t) out last := by
  rw [escapeSequence, exec_bind_ok (exec_atEnd ht)] at hm
  cases t with
  | nil =>
    rw [decide_eq_true rfl, if_pos rfl] at hm
    exact .bad (by decide) hm fun _ _ => not_stringBody_slash
  | cons d t =>
    have ht' : t <:+ P.text := (List.suffix_cons d t).trans ht
    rw [decide_eq_false (List.cons_ne_nil d t), if_neg Bool.false_ne_true,
      exec_bind_ok (exec_next ht)] at hm
    -- the character decides: a number, one of the named escapes, or an error
    by_cases hd : d = 117
    · subst hd
      rw [if_pos rfl] at hm
      exact stringEnds_unicodeEscape ht'
        (ih _ ((List.drop_suffix 4 t).trans (List.suffix_cons _ _))) hm
    · rw [if_neg hd] at hm
      cases hesc : unescape d with
      | none =>
        rw [hesc] at hm
        refine .bad (List.append_ne_nil_of_left_ne_nil (by decide) _) hm fun us r h => ?_
        obtain ⟨e, us', he, -⟩ := (stringBody_escape hd).mp h
        exact absurd (hesc.symm.trans he) (Option.some_ne_none e).symm
      | some e =>
        rw [hesc] at hm
        refine .step hm (fun us r => ?_) (decodeAfter_byte last out e) (ih _ (List.suffix_cons d t) _ _)
        rw [stringBody_escape hd]
        constructor
        · rintro ⟨e', us', he, hus, h⟩
          rw [hesc] at he
          cases he
          exact ⟨us', hus, h⟩
        · rintro ⟨us', hus, h⟩
          exact ⟨e, us', hesc, hus, h⟩

theorem ends_stringLoop {fuel : ℕ} (hfuel : t.length < fuel) (ht : t <:+ P.text) (out : Str)
    (last : ℤ) : P.StringEnds (P.stringLoop fuel out last) s t out last := by
  -- on the fuel; every branch but the closing quote and the errors takes a character at least
  induction fuel generalizing t out last with
  | zero => omega
  | succ fuel ih =>
    generalize hloop : P.stringLoop (fuel + 1) out last = m
    have hm : exec m (P.cursor s t) = exec (P.stringLoop (fuel + 1) out last) (P.cursor s t) := by
      rw [hloop]
    rw [stringLoop, exec_bind_ok (exec_atEnd ht)] at hm
    cases t with
    | nil =>
      rw [decide_eq_true rfl, if_pos rfl] at hm
      exact .bad (by decide) hm fun _ _ => not_stringBody_nil
    | cons c t =>
      have hlen : t.length + 1 < fuel + 1 := hfuel
      have ht' : t <:+ P.text := (List.suffix_cons c t).trans ht
      rw [decide_eq_false (List.cons_ne_nil c t), if_neg Bool.false_ne_true,
        exec_bind_ok (exec_next ht)] at hm
      by_cases hquote : c = 34
      · subst hquote
        rw [if_pos rfl, exec_pure, ← decodeAfter_nil] at hm
        exact Or.inl ⟨[], t, .close, hm⟩
      · rw [if_neg hquote] at hm
        by_cases hcontrol : c ≤ 0x1f
        · have hslash : c ≠ 92 := by
            rintro rfl
            exact absurd hcontrol (by decide)
          rw [if_pos hcontrol] at hm
          refine .bad (List.append_ne_nil_of_right_ne_nil _ (by decide)) hm fun us r h => ?_
          exact absurd ((stringBody_byte hquote hslash).mp h).1 (BitVec.not_lt.mpr hcontrol)
        · rw [if_neg hcontrol] at hm
          by_cases hslash : c = 92
          · subst hslash
            rw [if_neg (not_not.mpr rfl)] at hm
            refine stringEnds_escapeSequence ht' (fun u hu => ?_) hm
            have hle := hu.length_le
            exact ih (by omega) (hu.trans ht')
          · rw [if_pos hslash] at hm
            refine .step hm (fun us r => ?_) (decodeAfter_byte last out c) (ih (by omega) ht' _ _)
            rw [stringBody_byte hquote hslash]
            exact and_iff_right (BitVec.not_le.mp hcontrol)

/-- `parse_string` reads what the grammar calls a string, and fails elsewhere. -/
theorem ends_parseString (ht : t <:+ P.text) :
    (∃ out r, StringText t out r ∧ exec P.parseString (P.cursor s t) = (.ok out, P.cursor s r)) ∨
    (∀ out r, ¬ StringText t out r) ∧
      Returns P.parseString (P.cursor s t) fun _ s' => P.Failed s s' := by
  rcases ends_stringLoop (s := s) (lt_loopFuel ht) ht [] (-1) with ⟨us, r, hus, hm⟩ | ⟨hno, hm⟩
  · exact Or.inl ⟨decode us, r, ⟨us, hus, rfl⟩, hm⟩
  · exact Or.inr ⟨fun out r ⟨us, hus, _⟩ => hno us r hus, hm⟩

end JsonInput

end KeystoneSdk
