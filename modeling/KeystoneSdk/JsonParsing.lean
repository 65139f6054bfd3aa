/-
`Json::parse` accepts the texts of the grammar, and no others.

* `returns_parseJson` — every run of `parse_json` comes back, either failed or
  behind what the grammar derives (the induction is on the fuel);
* `exec_parseJson` — what the grammar derives is read (the induction is on the
  derivation);
* **`parse_total`** — for every text the parser comes back, without a read
  behind the text, with a value or with an error;
* **`parse_accepts_iff`** — it accepts the texts whose values are nested at most
  `max_depth` deep;
* **`parseMulti_total`** — several values in one text.
-/
import KeystoneSdk.JsonValues

open ByteMemory StopM

namespace KeystoneSdk

namespace JsonInput

variable {P : JsonInput} {s s' : JsonParser} {t u r : Str} {c : Byte} {n : ℕ} {α : Type}

/-! ### Indices do not go back -/

/-- A computation that leaves the index where it is, or moves it on. -/
def Forward (m : ParserM α) : Prop := Grows (fun s s' : JsonParser => s.i ≤ s'.i) m

theorem forward_refl (s : JsonParser) : s.i ≤ s.i := le_rfl

theorem forward_trans (s s' s'' : JsonParser) (h : s.i ≤ s'.i) (h' : s'.i ≤ s''.i) :
    s.i ≤ s''.i := h.trans h'

theorem Forward.bind {β : Type} {m : ParserM α} {f : α → ParserM β} (hm : Forward m)
    (hf : ∀ a, Forward (f a)) : Forward (m >>= f) :=
  Grows.bind forward_trans hm hf

theorem forward_pure (a : α) : Forward (pure a) := grows_pure forward_refl a

theorem forward_get : Forward (get : ParserM JsonParser) := grows_get forward_refl

theorem forward_throw (e : JsonStop) : Forward (throw e : ParserM α) :=
  grows_throw forward_refl e

theorem forward_fail (msg : Str) (a : α) : Forward (fail msg a) :=
  Forward.bind (grows_modify forward_refl) fun _ => forward_pure a

theorem forward_advance (n : ℕ) : Forward (advance n) := grows_modify fun _ => Nat.le_add_right ..

theorem forward_ite {p : Prop} [Decidable p] {m m' : ParserM α} (hm : Forward m)
    (hm' : Forward m') : Forward (if p then m else m') := by
  split
  · exact hm
  · exact hm'

theorem forward_charAt (n : ℕ) : Forward (P.charAt n) :=
  forward_get.bind fun _ => forward_ite (forward_pure _) (forward_throw _)

theorem forward_atEnd : Forward P.atEnd := forward_get.bind fun _ => forward_pure _

theorem forward_pastLastTwo : Forward P.pastLastTwo := forward_get.bind fun _ => forward_pure _

theorem forward_next : Forward P.next :=
  (forward_charAt 0).bind fun _ => (forward_advance 1).bind fun _ => forward_pure _

theorem forward_skipWhile (test : Byte → Bool) (fuel : ℕ) : Forward (P.skipWhile test fuel) := by
  induction fuel with
  | zero => exact forward_throw _
  | succ fuel ih =>
    exact (forward_charAt 0).bind fun _ =>
      forward_ite ((forward_advance 1).bind fun _ => ih) (forward_pure _)

theorem forward_inlineLoop (fuel : ℕ) : Forward (P.inlineLoop fuel) := by
  induction fuel with
  | zero => exact forward_throw _
  | succ fuel ih =>
    exact forward_get.bind fun _ => forward_ite (forward_pure _) ((forward_charAt 0).bind fun _ =>
      forward_ite (forward_pure _) ((forward_advance 1).bind fun _ => ih))

theorem forward_closesComment : Forward P.closesComment :=
  (forward_charAt 0).bind fun _ =>
    forward_ite ((forward_charAt 1).bind fun _ => forward_pure _) (forward_pure _)

theorem forward_multilineLoop (fuel : ℕ) : Forward (P.multilineLoop fuel) := by
  induction fuel with
  | zero => exact forward_throw _
  | succ fuel ih =>
    exact forward_closesComment.bind fun _ => forward_ite (forward_pure _)
      ((forward_advance 1).bind fun _ => forward_pastLastTwo.bind fun _ =>
        forward_ite (forward_fail _ _) ih)

theorem forward_consumeComment : Forward P.consumeComment := by
  refine (forward_charAt 0).bind fun _ => forward_ite ?_ (forward_pure _)
  refine (forward_advance 1).bind fun _ => forward_atEnd.bind fun _ =>
    forward_ite (forward_fail _ _) ((forward_charAt 0).bind fun _ => ?_)
  refine forward_ite ((forward_advance 1).bind fun _ => (forward_inlineLoop _).bind fun _ =>
    forward_pure _) (forward_ite ?_ (forward_fail _ _))
  refine (forward_advance 1).bind fun _ => forward_pastLastTwo.bind fun _ =>
    forward_ite (forward_fail _ _) ((forward_multilineLoop _).bind fun _ => ?_)
  exact forward_ite ((forward_advance 2).bind fun _ => forward_pure _) (forward_pure _)

theorem forward_commentLoop (fuel : ℕ) : Forward (P.commentLoop fuel) := by
  induction fuel with
  | zero => exact forward_throw _
  | succ fuel ih =>
    exact forward_consumeComment.bind fun _ => forward_get.bind fun _ =>
      forward_ite (forward_pure _) ((forward_skipWhile _ _).bind fun _ =>
        forward_ite ih (forward_pure _))

theorem forward_getNextToken : Forward P.getNextToken := by
  have hgarbage : Forward P.consumeGarbage :=
    (forward_skipWhile _ _).bind fun _ => forward_ite (forward_commentLoop _) (forward_pure _)
  exact hgarbage.bind fun _ => forward_get.bind fun _ => forward_ite (forward_pure _)
    (forward_atEnd.bind fun _ => forward_ite (forward_fail _ _) forward_next)

/-! ### Tokens that are known -/

theorem exec_getNextToken (hs : s.failed = false) (ht : t <:+ P.text)
    (h : Token P.strategy t c u) : exec P.getNextToken (P.cursor s t) = (.ok c, P.cursor s u) := by
  rcases ends_getNextToken hs ht with ⟨c', u', h', hexec⟩ | ⟨hno, -⟩
  · obtain ⟨rfl, rfl⟩ := h.unique h'
    exact hexec
  · exact absurd h (hno c u)

theorem exec_parseString {out : Str} (ht : t <:+ P.text) (h : StringText t out r) :
    exec P.parseString (P.cursor s t) = (.ok out, P.cursor s r) := by
  rcases ends_parseString (s := s) ht with ⟨out', r', h', hexec⟩ | ⟨hno, -⟩
  · obtain ⟨rfl, rfl⟩ := h.unique h'
    exact hexec
  · exact absurd h (hno out r)

theorem exec_parseNumber {v : BitVec 32} (ht : t <:+ P.text) (h : NumberText P.strtod t v r) :
    exec P.parseNumber (P.cursor s t) = (.ok (.number v), P.cursor s r) := by
  rcases ends_parseNumber (s := s) ht with ⟨v', r', h', hexec⟩ | ⟨hno, -⟩
  · obtain ⟨rfl, rfl⟩ := h.unique h'
    exact hexec
  · exact absurd h (hno v r)

theorem exec_consumeGarbage (hs : s.failed = false) (ht : t <:+ P.text)
    (h : Garbage P.strategy t u) :
    exec P.consumeGarbage (P.cursor s t) = (.ok ⟨⟩, P.cursor s u) := by
  rcases ends_consumeGarbage hs ht with ⟨u', h', hexec⟩ | ⟨hno, -⟩
  · obtain rfl := h.unique h'
    exact hexec
  · exact absurd h (hno u)

theorem exec_expect {w : Str} {res : Json} (ht : c :: (w ++ r) <:+ P.text) :
    exec (P.expect (c :: w) res) (P.cursor s (w ++ r)) = (.ok res, P.cursor s r) := by
  have htake : (c :: (w ++ r)).take (c :: w).length = c :: w := @List.take_left _ (c :: w) r
  have hadvance : exec (advance (c :: w).length) (P.cursor s (c :: (w ++ r))) =
      (.ok ⟨⟩, P.cursor s r) := exec_advance (w := c :: w) rfl ht
  rw [expect, exec_bind_ok (exec_back ht), exec_bind_ok (exec_substr ht _), htake, if_pos rfl,
    exec_bind_ok hadvance, exec_pure]

/-- A word that is not the expected one. -/
theorem returns_expect {w : Str} {res : Json} (ht : c :: u <:+ P.text) :
    Returns (P.expect (c :: w) res) (P.cursor s u) fun v s' =>
      P.Failed s s' ∨ ∃ r, u = w ++ r ∧ v = res ∧ s' = P.cursor s r := by
  by_cases hw : (c :: u).take (c :: w).length = c :: w
  · obtain ⟨r, rfl⟩ : ∃ r, u = w ++ r := by
      have happend := List.take_append_drop (c :: w).length (c :: u)
      rw [hw] at happend
      exact ⟨_, (List.cons_injective happend).symm⟩
    exact (returns_of_exec (exec_expect ht)).mpr (Or.inr ⟨r, rfl, rfl, rfl⟩)
  · rw [expect, returns_bind_exec (exec_back ht), returns_bind_exec (exec_substr ht _), if_neg hw]
    exact (returns_fail (by simp [str]) _).mono fun _ _ h => Or.inl h

/-! ### What is derived is read -/

variable (P) in
/-- The parser reads the phrase `p` of `t`.  The items of an array and the
members of an object are read behind their first character, by the loops; garbage
in front of a value may have been read before. -/
def Reads (n : ℕ) (t r : Str) : JsonPhrase → Prop
  | .value j => ∀ (d fuel : ℕ) (s : JsonParser) (t' : Str), s.failed = false → d + n ≤ maxDepth →
      (∀ u, Garbage P.strategy t u → Garbage P.strategy t' u) → t' <:+ P.text →
      2 * t'.length + 2 ≤ fuel →
      exec (P.parseJson fuel d) (P.cursor s t') = (.ok j, P.cursor s r)
  | .items js => ∀ (d fuel : ℕ) (s : JsonParser) (data : List Json) (c : Byte) (u : Str),
      s.failed = false → d + 1 + n ≤ maxDepth → t <:+ P.text → Token P.strategy t c u →
      2 * u.length + 5 ≤ fuel →
      exec (P.arrayLoop fuel d data) (P.cursor s u) = (.ok (.array (data ++ js)), P.cursor s r)
  | .members ms => ∀ (d fuel : ℕ) (s : JsonParser) (data : List (Str × Json)) (u : Str),
      s.failed = false → d + 1 + n ≤ maxDepth → t <:+ P.text → Token P.strategy t 34 u →
      2 * u.length + 3 ≤ fuel →
      exec (P.objectLoop fuel d data 34) (P.cursor s u) =
        (.ok (.object (ms.foldl (fun data m => mapInsert m.1 m.2 data) data)), P.cursor s r)

/-- The start of a value that is not too deep. -/
theorem exec_parseJson_start {d fuel : ℕ} (hs : s.failed = false) (hd : d ≤ maxDepth)
    (ht : t <:+ P.text) (h : Token P.strategy t c u) :
    exec (P.parseJson (fuel + 1) d) (P.cursor s t) =
      exec (P.startValue (P.objectLoop fuel d []) (P.arrayLoop fuel d []) c) (P.cursor s u) := by
  have hnot : ¬ (P.cursor s u).failed = true := by
    rw [cursor_failed, hs]
    exact Bool.false_ne_true
  rw [parseJson, if_neg (Nat.not_lt.mpr hd), exec_bind_ok (exec_getNextToken hs ht h),
    exec_bind_ok (exec_get _), if_neg hnot]

/-- The loop over the items of an array, in front of an item. -/
theorem Reads.item {j : Json} {d fuel : ℕ} {data : List Json} {v : Str}
    (h : P.Reads n t v (.value j)) (hs : s.failed = false) (hd : d + 1 + n ≤ maxDepth)
    (ht : t <:+ P.text) (hu : Token P.strategy t c u) (hfuel : 2 * u.length + 5 ≤ fuel + 1) :
    exec (P.arrayLoop (fuel + 1) d data) (P.cursor s u) =
      exec (P.nextItem (P.arrayLoop fuel d) (data ++ [j])) (P.cursor s v) := by
  have hcu : c :: u <:+ P.text := (Garbage.suffix hu).trans ht
  have hnot : ¬ (P.cursor s v).failed = true := by
    rw [cursor_failed, hs]
    exact Bool.false_ne_true
  have hvalue := h (d + 1) fuel s (c :: u) hs hd
    (fun w hw => by rw [← Garbage.unique hu hw]; exact hu.stopped) hcu
    (by rw [List.length_cons]; omega)
  rw [arrayLoop, exec_bind_ok (exec_back hcu), exec_bind_ok hvalue, exec_bind_ok (exec_get _),
    if_neg hnot]

/-- The loop over the members of an object, in front of a key. -/
theorem Reads.member {j : Json} {d fuel : ℕ} {data : List (Str × Json)} {v w x key : Str}
    (hkey : StringText u key v) (hv : Token P.strategy v 58 w) (h : P.Reads n w x (.value j))
    (hs : s.failed = false) (hd : d + 1 + n ≤ maxDepth) (hu : u <:+ P.text)
    (hfuel : 2 * u.length + 3 ≤ fuel + 1) :
    exec (P.objectLoop (fuel + 1) d data 34) (P.cursor s u) =
      exec (P.nextMember (P.objectLoop fuel d) (mapInsert key j data)) (P.cursor s x) := by
  have hv' : v <:+ P.text := hkey.suffix.trans hu
  have hw : w <:+ P.text := hv.suffix.trans hv'
  have hlen : w.length ≤ u.length := (hv.suffix.trans hkey.suffix).length_le
  have hnot : ∀ y : Str, ¬ (P.cursor s y).failed = true := fun y => by
    rw [cursor_failed, hs]
    exact Bool.false_ne_true
  have hvalue := h (d + 1) fuel s w hs hd (fun _ hw => hw) hw (by omega)
  rw [objectLoop, if_neg (not_not.mpr rfl), exec_bind_ok (exec_parseString hu hkey),
    exec_bind_ok (exec_get _), if_neg (hnot v), exec_bind_ok (exec_getNextToken hs hv' hv),
    if_neg (not_not.mpr rfl), exec_bind_ok hvalue, exec_bind_ok (exec_get _), if_neg (hnot x)]

/-- What is derived is read. -/
theorem reads_of_derives {p : JsonPhrase} (h : Derives P.strategy P.strtod n t p r) :
    P.Reads n t r p := by
  -- on the derivation; each call takes one from the fuel, and the text behind a token is shorter
  -- than the fuel allows
  induction h with
  | null h =>
    intro d fuel s t' hs hd hg ht hfuel
    obtain ⟨fuel, rfl⟩ : ∃ k, fuel = k + 1 := ⟨fuel - 1, by omega⟩
    have htoken := hg _ h
    rw [exec_parseJson_start hs (by omega) ht htoken]
    exact exec_expect ((Garbage.suffix htoken).trans ht)
  | boolTrue h =>
    intro d fuel s t' hs hd hg ht hfuel
    obtain ⟨fuel, rfl⟩ : ∃ k, fuel = k + 1 := ⟨fuel - 1, by omega⟩
    have htoken := hg _ h
    rw [exec_parseJson_start hs (by omega) ht htoken]
    exact exec_expect ((Garbage.suffix htoken).trans ht)
  | boolFalse h =>
    intro d fuel s t' hs hd hg ht hfuel
    obtain ⟨fuel, rfl⟩ : ∃ k, fuel = k + 1 := ⟨fuel - 1, by omega⟩
    have htoken := hg _ h
    rw [exec_parseJson_start hs (by omega) ht htoken]
    exact exec_expect ((Garbage.suffix htoken).trans ht)
  | number hu h =>
    intro d fuel s t' hs hd hg ht hfuel
    obtain ⟨fuel, rfl⟩ : ∃ k, fuel = k + 1 := ⟨fuel - 1, by omega⟩
    obtain ⟨c, w, rfl, hc⟩ := h.head
    have htoken := hg _ hu
    have hcw : c :: w <:+ P.text := (Garbage.suffix htoken).trans ht
    rw [exec_parseJson_start hs (by omega) ht htoken, startValue, if_pos hc,
      exec_bind_ok (exec_back hcw)]
    exact exec_parseNumber hcw h
  | string hu h =>
    intro d fuel s t' hs hd hg ht hfuel
    obtain ⟨fuel, rfl⟩ : ∃ k, fuel = k + 1 := ⟨fuel - 1, by omega⟩
    have htoken := hg _ hu
    rw [exec_parseJson_start hs (by omega) ht htoken]
    exact exec_bind_ok (exec_parseString (Token.suffix htoken |>.trans ht) h)
  | noItems hu h =>
    intro d fuel s t' hs hd hg ht hfuel
    obtain ⟨fuel, rfl⟩ : ∃ k, fuel = k + 1 := ⟨fuel - 1, by omega⟩
    have htoken := hg _ hu
    rw [exec_parseJson_start hs (by omega) ht htoken]
    exact exec_bind_ok (exec_getNextToken hs (Token.suffix htoken |>.trans ht) h)
  | noMembers hu h =>
    intro d fuel s t' hs hd hg ht hfuel
    obtain ⟨fuel, rfl⟩ : ∃ k, fuel = k + 1 := ⟨fuel - 1, by omega⟩
    have htoken := hg _ hu
    rw [exec_parseJson_start hs (by omega) ht htoken]
    exact exec_bind_ok (exec_getNextToken hs (Token.suffix htoken |>.trans ht) h)
  | @array n t u r js hu h ih =>
    intro d fuel s t' hs hd hg ht hfuel
    obtain ⟨fuel, rfl⟩ : ∃ k, fuel = k + 1 := ⟨fuel - 1, by omega⟩
    have htoken : Token P.strategy t' 91 u := hg _ hu
    have hu' : u <:+ P.text := htoken.suffix.trans ht
    have hlt := htoken.length_lt
    obtain ⟨j, c, v, hv, hj⟩ := h.items_starts
    have hlt' := hv.length_lt
    have hne : c ≠ 93 := fun hc => j.not_startsWith_bracket (hc ▸ hj)
    have hexec := ih d fuel s [] c v hs (by omega) hu' hv (by omega)
    rw [exec_parseJson_start hs (by omega) ht htoken]
    refine (exec_bind_ok (exec_getNextToken hs hu' hv)).trans ?_
    rw [if_neg hne]
    exact hexec
  | @object n t u r ms hu h ih =>
    intro d fuel s t' hs hd hg ht hfuel
    obtain ⟨fuel, rfl⟩ : ∃ k, fuel = k + 1 := ⟨fuel - 1, by omega⟩
    have htoken : Token P.strategy t' 123 u := hg _ hu
    have hu' : u <:+ P.text := htoken.suffix.trans ht
    have hlt := htoken.length_lt
    obtain ⟨v, hv⟩ := h.members_starts
    have hlt' := hv.length_lt
    have hexec := ih d fuel s [] v hs (by omega) hu' hv (by omega)
    rw [exec_parseJson_start hs (by omega) ht htoken]
    refine (exec_bind_ok (exec_getNextToken hs hu' hv)).trans ?_
    rw [if_neg (by decide)]
    exact hexec
  | @lastItem n t v r j h hv ih =>
    intro d fuel s data c u hs hd ht hu hfuel
    obtain ⟨fuel, rfl⟩ : ∃ k, fuel = k + 1 := ⟨fuel - 1, by omega⟩
    have hv' : v <:+ P.text := h.suffix.trans ht
    rw [ih.item hs hd ht hu hfuel, nextItem, exec_bind_ok (exec_getNextToken hs hv' hv), if_pos rfl]
    rfl
  | @item n t v w r j js h hv hw ih ih' =>
    intro d fuel s data c u hs hd ht hu hfuel
    obtain ⟨fuel, rfl⟩ : ∃ k, fuel = k + 1 := ⟨fuel - 1, by omega⟩
    have hv' : v <:+ P.text := h.suffix.trans ht
    have hw' : w <:+ P.text := hv.suffix.trans hv'
    obtain ⟨j', c', x, hx, -⟩ := hw.items_starts
    have hvu := (h.suffix_token hu).length_le
    have hwv := hv.length_lt
    have hxw := hx.length_lt
    have hrest := ih' d fuel s (data ++ [j]) c' x hs hd hw' hx (by omega)
    rw [ih.item hs hd ht hu hfuel, nextItem, exec_bind_ok (exec_getNextToken hs hv' hv),
      if_neg (by decide), if_neg (not_not.mpr rfl), exec_bind_ok (exec_getNextToken hs hw' hx), hrest,
      List.append_assoc]
    rfl
  | @lastMember n t u v w x key r j hu hkey hv h hx ih =>
    intro d fuel s data u' hs hd ht hu' hfuel
    obtain ⟨-, rfl⟩ := hu.unique hu'
    obtain ⟨fuel, rfl⟩ : ∃ k, fuel = k + 1 := ⟨fuel - 1, by omega⟩
    have hut : u <:+ P.text := hu.suffix.trans ht
    have hxt : x <:+ P.text := h.suffix.trans (hv.suffix.trans (hkey.suffix.trans hut))
    rw [ih.member hkey hv hs hd hut hfuel, nextMember, exec_bind_ok (exec_getNextToken hs hxt hx),
      if_pos rfl]
    rfl
  | @member n t u v w x y key r j ms hu hkey hv h hx hy ih ih' =>
    intro d fuel s data u' hs hd ht hu' hfuel
    obtain ⟨-, rfl⟩ := hu.unique hu'
    obtain ⟨fuel, rfl⟩ : ∃ k, fuel = k + 1 := ⟨fuel - 1, by omega⟩
    have hut : u <:+ P.text := hu.suffix.trans ht
    have hxt : x <:+ P.text := h.suffix.trans (hv.suffix.trans (hkey.suffix.trans hut))
    have hyt : y <:+ P.text := hx.suffix.trans hxt
    obtain ⟨z, hz⟩ := hy.members_starts
    have hxu := (h.suffix.trans (hv.suffix.trans hkey.suffix)).length_le
    have hyx := hx.length_lt
    have hzy := hz.length_lt
    have hrest := ih' d fuel s (mapInsert key j data) z hs hd hyt hz (by omega)
    rw [ih.member hkey hv hs hd hut hfuel, nextMember, exec_bind_ok (exec_getNextToken hs hxt hx),
      if_neg (by decide), if_neg (not_not.mpr rfl), exec_bind_ok (exec_getNextToken hs hyt hz), hrest]
    rfl

/-! ### A failed parser comes back -/

theorem Failed.fail {msg : Str} (h : P.Failed s s') (a : α) :
    Returns (JsonInput.fail msg a) s' fun _ s'' => P.Failed s s'' := by
  rw [JsonInput.fail, returns_bind, returns_modify, returns_pure]
  have herr : (if s'.failed then s'.err else msg) = s'.err := if_pos h.failed
  refine ⟨h.inside, rfl, fun hs => ?_, fun hs => ?_⟩
  · exact herr.trans (h.first hs)
  · exact fun hnil => h.message hs (herr.symm.trans hnil)

/-- A failed parser reads no token. -/
theorem Failed.getNextToken (h : P.Failed s s') :
    Returns P.getNextToken s' fun c s'' => c = 0 ∧ P.Failed s s'' := by
  have hgarbage := returns_consumeGarbage_failed h.failed (List.drop_suffix s'.i P.text)
  rw [cursor_drop h.inside] at hgarbage
  rw [JsonInput.getNextToken]
  refine hgarbage.bind fun _ s'' h' => ?_
  rw [returns_bind_exec (exec_get _), if_pos h'.failed, returns_pure]
  exact ⟨rfl, h.trans h'⟩

theorem Failed.parseJson (h : P.Failed s s') (fuel d : ℕ) :
    Returns (P.parseJson (fuel + 1) d) s' fun _ s'' => P.Failed s s'' := by
  rw [JsonInput.parseJson]
  split
  · exact h.fail _
  · refine h.getNextToken.bind fun c s'' h' => ?_
    rw [returns_bind_exec (exec_get _), if_pos h'.2.failed, returns_pure]
    exact h'.2

theorem Failed.objectLoop (h : P.Failed s s') (fuel d : ℕ) (data : List (Str × Json)) :
    Returns (P.objectLoop (fuel + 1) d data 0) s' fun _ s'' => P.Failed s s'' := by
  rw [JsonInput.objectLoop, if_pos (by decide)]
  exact h.fail _

/-- A failed parser that has read something takes one step back. -/
theorem Failed.arrayLoop (h : P.Failed s s') (hi : 0 < s'.i) (fuel d : ℕ) (data : List Json) :
    Returns (P.arrayLoop (fuel + 2) d data) s' fun _ s'' => P.Failed s s'' := by
  have hback : exec back s' = (.ok ⟨⟩, { s' with i := s'.i - 1 }) := by
    rw [back, exec_bind_ok (exec_get _), if_neg (by omega), exec_set]
  have hfailed : P.Failed s { s' with i := s'.i - 1 } :=
    ⟨(Nat.sub_le ..).trans h.inside, h.failed, h.first, h.message⟩
  rw [JsonInput.arrayLoop, returns_bind_exec hback]
  refine (hfailed.parseJson fuel (d + 1)).bind fun _ s'' h' => ?_
  rw [returns_bind_exec (exec_get _), if_pos h'.failed, returns_pure]
  exact h'

/-! ### What is read is derived -/

variable (P) in
/-- After a value at the depth `d`: the parser failed, or it stands behind a
value of `t` that is not too deep. -/
def Parsed (s : JsonParser) (t : Str) (d : ℕ) (v : Json) (s' : JsonParser) : Prop :=
  P.Failed s s' ∨ d ≤ maxDepth ∧
    ∃ r, Derives P.strategy P.strtod (maxDepth - d) t (.value v) r ∧ s' = P.cursor s r

/-- Behind an item, the loop over the items of an array ends or goes on. -/
theorem returns_nextItem {items : List Json → ParserM Json} {data : List Json}
    {Q : Json → JsonParser → Prop} (hs : s.failed = false) (ht : t <:+ P.text)
    (hclose : ∀ r, Token P.strategy t 93 r → Q (.array data) (P.cursor s r))
    (hmore : ∀ w, Token P.strategy t 44 w → ∀ c u, Token P.strategy w c u →
      Returns (items data) (P.cursor s u) Q)
    (hitems : ∀ s', P.Failed s s' → 0 < s'.i → Returns (items data) s' fun _ s'' => P.Failed s s'')
    (hfailed : ∀ v s', P.Failed s s' → Q v s') :
    Returns (P.nextItem items data) (P.cursor s t) Q := by
  rw [nextItem]
  rcases ends_getNextToken hs ht with ⟨c, u, htoken, hexec⟩ | ⟨-, hret⟩
  · rw [returns_bind_exec hexec]
    by_cases hc : c = 93
    · subst hc
      rw [if_pos rfl, returns_pure]
      exact hclose u htoken
    · rw [if_neg hc]
      by_cases hcomma : c = 44
      · subst hcomma
        have hu : u <:+ P.text := htoken.suffix.trans ht
        have hi : 0 < (P.cursor s u).i := by
          have hadd := cursor_i_add (s := s) hu
          have hlt := htoken.length_lt
          have hle := ht.length_le
          omega
        rw [if_neg (not_not.mpr rfl)]
        rcases ends_getNextToken hs hu with ⟨c', w, htoken', hexec'⟩ | ⟨-, hret'⟩
        · rw [returns_bind_exec hexec']
          exact hmore u htoken c' w htoken'
        · -- the loop goes on although it has failed: it moves back once more
          obtain ⟨a, s', hexec', -, hfail⟩ := hret'
          have hforward := forward_getNextToken (P := P) (P.cursor s u)
          rw [hexec'] at hforward
          rw [returns_bind_exec hexec']
          exact (hitems s' hfail (hi.trans_le hforward)).mono hfailed
      · rw [if_pos hcomma]
        exact (returns_fail (List.append_ne_nil_of_left_ne_nil (by decide) _) _).mono hfailed
  · refine hret.bind fun c s' h => ?_
    rw [h.1, if_neg (by decide), if_pos (by decide)]
    exact (h.2.fail _).mono hfailed

/-- Behind a member, the loop over the members of an object ends or goes on. -/
theorem returns_nextMember {members : List (Str × Json) → Byte → ParserM Json}
    {data : List (Str × Json)} {Q : Json → JsonParser → Prop} (hs : s.failed = false)
    (ht : t <:+ P.text) (hclose : ∀ r, Token P.strategy t 125 r → Q (.object data) (P.cursor s r))
    (hmore : ∀ w, Token P.strategy t 44 w → ∀ c u, Token P.strategy w c u →
      Returns (members data c) (P.cursor s u) Q)
    (hmembers : ∀ s', P.Failed s s' → Returns (members data 0) s' fun _ s'' => P.Failed s s'')
    (hfailed : ∀ v s', P.Failed s s' → Q v s') :
    Returns (P.nextMember members data) (P.cursor s t) Q := by
  rw [nextMember]
  rcases ends_getNextToken hs ht with ⟨c, u, htoken, hexec⟩ | ⟨-, hret⟩
  · rw [returns_bind_exec hexec]
    by_cases hc : c = 125
    · subst hc
      rw [if_pos rfl, returns_pure]
      exact hclose u htoken
    · rw [if_neg hc]
      by_cases hcomma : c = 44
      · subst hcomma
        have hu : u <:+ P.text := htoken.suffix.trans ht
        rw [if_neg (not_not.mpr rfl)]
        rcases ends_getNextToken hs hu with ⟨c', w, htoken', hexec'⟩ | ⟨-, hret'⟩
        · rw [returns_bind_exec hexec']
          exact hmore u htoken c' w htoken'
        · refine hret'.bind fun c' s' h => ?_
          rw [h.1]
          exact (hmembers s' h.2).mono hfailed
      · rw [if_pos hcomma]
        exact (returns_fail (List.append_ne_nil_of_left_ne_nil (by decide) _) _).mono hfailed
  · refine hret.bind fun c s' h => ?_
    rw [h.1, if_neg (by decide), if_pos (by decide)]
    exact (h.2.fail _).mono hfailed

/-- A value behind its first character. -/
theorem returns_startValue {members : Byte → ParserM Json} {items : ParserM Json} {d : ℕ}
    (hs : s.failed = false) (hd : d ≤ maxDepth) (ht : t <:+ P.text) (hu : Token P.strategy t c u)
    (hitems : c = 91 → ∀ c' w, Token P.strategy u c' w →
      Returns items (P.cursor s w) (P.Parsed s t d))
    (hmembers : c = 123 → ∀ c' w, Token P.strategy u c' w →
      Returns (members c') (P.cursor s w) (P.Parsed s t d))
    (hitems' : ∀ s', P.Failed s s' → 0 < s'.i → Returns items s' fun _ s'' => P.Failed s s'')
    (hmembers' : ∀ s', P.Failed s s' → Returns (members 0) s' fun _ s'' => P.Failed s s'') :
    Returns (P.startValue members items c) (P.cursor s u) (P.Parsed s t d) := by
  have hcu : c :: u <:+ P.text := (Garbage.suffix hu).trans ht
  have hut : u <:+ P.text := hu.suffix.trans ht
  have hi : 0 < (P.cursor s u).i := by
    have hadd := cursor_i_add (s := s) hut
    have hle : u.length + 1 ≤ P.text.length := hcu.length_le
    omega
  rw [startValue]
  -- the characters in the order in which the code asks for them
  by_cases hnumber : c = 45 ∨ isDigit c = true
  · rw [if_pos hnumber, returns_bind_exec (exec_back hcu)]
    rcases ends_parseNumber (s := s) hcu with ⟨v, r, hv, hexec⟩ | ⟨-, hret⟩
    · exact (returns_of_exec hexec).mpr (Or.inr ⟨hd, r, .number hu hv, rfl⟩)
    · exact hret.mono fun _ _ h => Or.inl h
  rw [if_neg hnumber]
  by_cases htrue : c = 116
  · subst htrue
    rw [if_pos rfl]
    refine (returns_expect hcu).mono fun v s' h => h.imp_right ?_
    rintro ⟨r, rfl, rfl, rfl⟩
    exact ⟨hd, r, .boolTrue hu, rfl⟩
  rw [if_neg htrue]
  by_cases hfalse : c = 102
  · subst hfalse
    rw [if_pos rfl]
    refine (returns_expect hcu).mono fun v s' h => h.imp_right ?_
    rintro ⟨r, rfl, rfl, rfl⟩
    exact ⟨hd, r, .boolFalse hu, rfl⟩
  rw [if_neg hfalse]
  by_cases hnull : c = 110
  · subst hnull
    rw [if_pos rfl]
    refine (returns_expect hcu).mono fun v s' h => h.imp_right ?_
    rintro ⟨r, rfl, rfl, rfl⟩
    exact ⟨hd, r, .null hu, rfl⟩
  rw [if_neg hnull]
  by_cases hquote : c = 34
  · subst hquote
    rw [if_pos rfl]
    rcases ends_parseString (s := s) hut with ⟨out, r, hout, hexec⟩ | ⟨-, hret⟩
    · rw [returns_bind_exec hexec, returns_pure]
      exact Or.inr ⟨hd, r, .string hu hout, rfl⟩
    · refine hret.bind fun out s' h => ?_
      rw [returns_pure]
      exact Or.inl h
  rw [if_neg hquote]
  by_cases hbrace : c = 123
  · subst hbrace
    rw [if_pos rfl]
    rcases ends_getNextToken hs hut with ⟨c', w, hw, hexec⟩ | ⟨-, hret⟩
    · rw [returns_bind_exec hexec]
      by_cases hclose : c' = 125
      · subst hclose
        rw [if_pos rfl, returns_pure]
        exact Or.inr ⟨hd, w, .noMembers hu hw, rfl⟩
      · rw [if_neg hclose]
        exact hmembers rfl c' w hw
    · refine hret.bind fun c' s' h => ?_
      rw [h.1, if_neg (by decide)]
      exact (hmembers' s' h.2).mono fun _ _ h => Or.inl h
  rw [if_neg hbrace]
  by_cases hbracket : c = 91
  · subst hbracket
    rw [if_pos rfl]
    rcases ends_getNextToken hs hut with ⟨c', w, hw, hexec⟩ | ⟨-, hret⟩
    · rw [returns_bind_exec hexec]
      by_cases hclose : c' = 93
      · subst hclose
        rw [if_pos rfl, returns_pure]
        exact Or.inr ⟨hd, w, .noItems hu hw, rfl⟩
      · rw [if_neg hclose]
        exact hitems rfl c' w hw
    · -- the loop over the items starts failed, and moves back over a character that is there
      obtain ⟨c', s', hexec, hc', hfail⟩ := hret
      have hforward := forward_getNextToken (P := P) (P.cursor s u)
      rw [hexec] at hforward
      rw [returns_bind_exec hexec, hc', if_neg (by decide)]
      exact (hitems' s' hfail (hi.trans_le hforward)).mono fun _ _ h => Or.inl h
  · rw [if_neg hbracket]
    exact (returns_fail (List.append_ne_nil_of_left_ne_nil (by decide) _) _).mono
      fun _ _ h => Or.inl h

variable (P) in
/-- Every run of `parse_json` with this fuel comes back. -/
def ValueReturns (fuel : ℕ) : Prop :=
  ∀ (d : ℕ) (s : JsonParser) (t : Str), s.failed = false → t <:+ P.text →
    2 * t.length + 2 ≤ fuel → Returns (P.parseJson fuel d) (P.cursor s t) (P.Parsed s t d)

variable (P) in
/-- Every run of its loop over the items of an array, behind their first token. -/
def ItemsReturns (fuel : ℕ) : Prop :=
  ∀ (d : ℕ) (s : JsonParser) (data : List Json) (t u : Str) (c : Byte), s.failed = false →
    t <:+ P.text → Token P.strategy t c u → 2 * u.length + 5 ≤ fuel →
      Returns (P.arrayLoop fuel d data) (P.cursor s u) fun v s' => P.Failed s s' ∨
        d + 1 ≤ maxDepth ∧ ∃ js r, v = .array (data ++ js) ∧
          Derives P.strategy P.strtod (maxDepth - (d + 1)) t (.items js) r ∧ s' = P.cursor s r

variable (P) in
/-- Every run of its loop over the members of an object, behind their first token. -/
def MembersReturns (fuel : ℕ) : Prop :=
  ∀ (d : ℕ) (s : JsonParser) (data : List (Str × Json)) (t u : Str) (c : Byte),
    s.failed = false → t <:+ P.text → Token P.strategy t c u → 2 * u.length + 3 ≤ fuel →
      Returns (P.objectLoop fuel d data c) (P.cursor s u) fun v s' => P.Failed s s' ∨
        d + 1 ≤ maxDepth ∧ ∃ ms r,
          v = .object (ms.foldl (fun data m => mapInsert m.1 m.2 data) data) ∧
          Derives P.strategy P.strtod (maxDepth - (d + 1)) t (.members ms) r ∧ s' = P.cursor s r

/-- A value, from the loops over its items and its members. -/
theorem valueReturns_succ {fuel : ℕ} (ihItems : P.ItemsReturns fuel)
    (ihMembers : P.MembersReturns fuel) : P.ValueReturns (fuel + 1) := by
  intro d s t hs ht hfuel
  rw [parseJson]
  by_cases hd : d > maxDepth
  · rw [if_pos hd]
    exact (returns_fail (by decide) _).mono fun _ _ h => Or.inl h
  rw [if_neg hd]
  have hd : d ≤ maxDepth := Nat.not_lt.mp hd
  rcases ends_getNextToken hs ht with ⟨c, u, hu, hexec⟩ | ⟨-, hret⟩
  · have hnot : ¬ (P.cursor s u).failed = true := by
      rw [cursor_failed, hs]
      exact Bool.false_ne_true
    have hut : u <:+ P.text := hu.suffix.trans ht
    have hlt := hu.length_lt
    obtain ⟨k, rfl⟩ : ∃ k, fuel = k + 1 := ⟨fuel - 1, by omega⟩
    rw [returns_bind_exec hexec, returns_bind_exec (exec_get _), if_neg hnot]
    refine returns_startValue hs hd ht hu (fun hc c' w hw => ?_) (fun hc c' w hw => ?_)
      (fun s' h hi => ?_) fun s' h => h.objectLoop k d []
    · have hlt' := hw.length_lt
      refine (ihItems d s [] u w c' hs hut hw (by omega)).mono fun v s' h => h.imp_right ?_
      rintro ⟨hd', js, r, rfl, hjs, rfl⟩
      have hlevel : maxDepth - (d + 1) + 1 = maxDepth - d := by omega
      subst hc
      have harray := Derives.array hu hjs
      rw [hlevel] at harray
      exact ⟨hd, r, harray, rfl⟩
    · have hlt' := hw.length_lt
      refine (ihMembers d s [] u w c' hs hut hw (by omega)).mono fun v s' h => h.imp_right ?_
      rintro ⟨hd', ms, r, rfl, hms, rfl⟩
      have hlevel : maxDepth - (d + 1) + 1 = maxDepth - d := by omega
      subst hc
      have hobject := Derives.object hu hms
      rw [hlevel] at hobject
      exact ⟨hd, r, hobject, rfl⟩
    · obtain ⟨k', rfl⟩ : ∃ k', k = k' + 1 := ⟨k - 1, by
        have hle : u.length + 1 ≤ t.length := hlt
        omega⟩
      exact h.arrayLoop hi k' d []
  · refine hret.bind fun c s' h => ?_
    rw [returns_bind_exec (exec_get _), if_pos h.2.failed, returns_pure]
    exact Or.inl h.2

/-- One round over items: a value, and what is behind it. -/
theorem itemsReturns_succ {fuel : ℕ} (ihValue : P.ValueReturns fuel)
    (ihItems : P.ItemsReturns fuel) : P.ItemsReturns (fuel + 1) := by
  intro d s data t u c hs ht hu hfuel
  have hcu : c :: u <:+ P.text := (Garbage.suffix hu).trans ht
  rw [arrayLoop, returns_bind_exec (exec_back hcu)]
  refine (ihValue (d + 1) s (c :: u) hs hcu (by rw [List.length_cons]; omega)).bind
    fun j s' hj => ?_
  rcases hj with hfail | ⟨hd, v, hv, rfl⟩
  · rw [returns_bind_exec (exec_get _), if_pos hfail.failed, returns_pure]
    exact Or.inl hfail
  have hnot : ¬ (P.cursor s v).failed = true := by
    rw [cursor_failed, hs]
    exact Bool.false_ne_true
  have hvt : v <:+ P.text := hv.suffix.trans hcu
  -- the loop moved back in front of the token, so that the value is derived from `t` too
  have hvalue : Derives P.strategy P.strtod (maxDepth - (d + 1)) t (.value j) v :=
    hv.of_garbage hu
  have hvu := (hvalue.suffix_token hu).length_le
  obtain ⟨k, rfl⟩ : ∃ k, fuel = k + 2 := ⟨fuel - 2, by omega⟩
  rw [returns_bind_exec (exec_get _), if_neg hnot]
  refine returns_nextItem hs hvt (fun r hr => ?_) (fun w hw c' x hx => ?_)
    (fun s' h hi => h.arrayLoop hi k d _) fun _ _ h => Or.inl h
  · exact Or.inr ⟨hd, [j], r, rfl, .lastItem hvalue hr, rfl⟩
  · have hwv := hw.length_lt
    have hxw := hx.length_lt
    refine (ihItems d s (data ++ [j]) w x c' hs (hw.suffix.trans hvt) hx (by omega)).mono
      fun v s' h => h.imp_right ?_
    rintro ⟨-, js, r, rfl, hjs, rfl⟩
    exact ⟨hd, j :: js, r, by rw [List.append_assoc]; rfl, .item hvalue hw hjs, rfl⟩

/-- One round over members: a key, a colon, a value, and what is behind it. -/
theorem membersReturns_succ {fuel : ℕ} (ihValue : P.ValueReturns fuel)
    (ihMembers : P.MembersReturns fuel) : P.MembersReturns (fuel + 1) := by
  intro d s data t u c hs ht hu hfuel
  have hut : u <:+ P.text := hu.suffix.trans ht
  rw [objectLoop]
  by_cases hc : c = 34
  swap
  · rw [if_pos hc]
    exact (returns_fail (List.append_ne_nil_of_left_ne_nil (by decide) _) _).mono
      fun _ _ h => Or.inl h
  subst hc
  have hnot : ∀ y : Str, ¬ (P.cursor s y).failed = true := fun y => by
    rw [cursor_failed, hs]
    exact Bool.false_ne_true
  rw [if_neg (not_not.mpr rfl)]
  rcases ends_parseString (s := s) hut with ⟨key, v, hkey, hexec⟩ | ⟨-, hret⟩
  swap
  · refine hret.bind fun key s' h => ?_
    rw [returns_bind_exec (exec_get _), if_pos h.failed, returns_pure]
    exact Or.inl h
  have hvt : v <:+ P.text := hkey.suffix.trans hut
  rw [returns_bind_exec hexec, returns_bind_exec (exec_get _), if_neg (hnot v)]
  rcases ends_getNextToken hs hvt with ⟨c', w, hw, hexec'⟩ | ⟨-, hret⟩
  swap
  · -- the token 0 of a failed read is no colon
    refine hret.bind fun c' s' h => ?_
    rw [h.1, if_pos (by decide)]
    exact (h.2.fail _).mono fun _ _ h => Or.inl h
  rw [returns_bind_exec hexec']
  by_cases hcolon : c' = 58
  swap
  · rw [if_pos hcolon]
    exact (returns_fail (List.append_ne_nil_of_left_ne_nil (by decide) _) _).mono
      fun _ _ h => Or.inl h
  subst hcolon
  have hwt : w <:+ P.text := hw.suffix.trans hvt
  have hwv := hw.length_lt
  have hvu := hkey.suffix.length_le
  rw [if_neg (not_not.mpr rfl)]
  refine (ihValue (d + 1) s w hs hwt (by omega)).bind fun j s' hj => ?_
  rcases hj with hfail | ⟨hd, x, hx, rfl⟩
  · rw [returns_bind_exec (exec_get _), if_pos hfail.failed, returns_pure]
    exact Or.inl hfail
  have hxt : x <:+ P.text := hx.suffix.trans hwt
  have hxw := hx.suffix.length_le
  obtain ⟨k, rfl⟩ : ∃ k, fuel = k + 1 := ⟨fuel - 1, by omega⟩
  rw [returns_bind_exec (exec_get _), if_neg (hnot x)]
  refine returns_nextMember hs hxt (fun r hr => ?_) (fun y hy c'' z hz => ?_)
    (fun s' h => h.objectLoop k d _) fun _ _ h => Or.inl h
  · exact Or.inr ⟨hd, [(key, j)], r, rfl, .lastMember hu hkey hw hx hr, rfl⟩
  · have hyx := hy.length_lt
    have hzy := hz.length_lt
    refine (ihMembers d s (mapInsert key j data) y z c'' hs (hy.suffix.trans hxt) hz
      (by omega)).mono fun v s' h => h.imp_right ?_
    rintro ⟨-, ms, r, rfl, hms, rfl⟩
    exact ⟨hd, (key, j) :: ms, r, rfl, .member hu hkey hw hx hy hms, rfl⟩

/-- Every run of `parse_json` and of its loops comes back. -/
theorem returns_parseJson (fuel : ℕ) :
    P.ValueReturns fuel ∧ P.ItemsReturns fuel ∧ P.MembersReturns fuel := by
  induction fuel with
  | zero =>
    refine ⟨fun _ _ _ _ _ h => ?_, fun _ _ _ _ _ _ _ _ _ h => ?_, fun _ _ _ _ _ _ _ _ _ h => ?_⟩
    · omega
    · omega
    · omega
  | succ fuel ih =>
    obtain ⟨ihValue, ihItems, ihMembers⟩ := ih
    exact ⟨valueReturns_succ ihItems ihMembers, itemsReturns_succ ihValue ihItems,
      membersReturns_succ ihValue ihMembers⟩

/-! ### Whole texts -/

variable (P) in
/-- A parser in front of the whole text. -/
theorem cursor_start (err : Str) :
    P.cursor ⟨0, err, false⟩ P.text = (⟨0, err, false⟩ : JsonParser) := by
  refine JsonParser.ext ?_ rfl rfl
  exact Nat.sub_self _

/-- A text of the grammar is parsed. -/
theorem exec_parse {j : Json} (h : TextOf P maxDepth j) (err : Str) :
    exec P.parse ⟨0, err, false⟩ = (.ok j, ⟨P.text.length, err, false⟩) := by
  obtain ⟨r, hj, hr⟩ := h
  have hvalue := reads_of_derives hj 0 P.parseFuel ⟨0, err, false⟩ P.text rfl (by omega)
    (fun _ hu => hu) List.suffix_rfl le_rfl
  have hgarbage := exec_consumeGarbage (s := ⟨0, err, false⟩) rfl hj.suffix hr
  have hnot : ¬ (P.cursor ⟨0, err, false⟩ []).failed = true := Bool.false_ne_true
  have hend : ¬ (P.cursor ⟨0, err, false⟩ []).i ≠ P.text.length := not_not.mpr (Nat.sub_zero _)
  rw [cursor_start] at hvalue
  rw [parse, exec_bind_ok hvalue, exec_bind_ok hgarbage, exec_bind_ok (exec_get _), if_neg hnot,
    if_neg hend, exec_pure]
  rfl

/-- `Json::parse` comes back with an error, or with the value of the text. -/
theorem returns_parse (P : JsonInput) (err : Str) :
    Returns P.parse ⟨0, err, false⟩ fun j s' =>
      j = .null ∧ P.Failed ⟨0, err, false⟩ s' ∨
        TextOf P maxDepth j ∧ s' = ⟨P.text.length, err, false⟩ := by
  have hstart := cursor_start P err
  generalize hs₀ : (⟨0, err, false⟩ : JsonParser) = s₀ at hstart ⊢
  have hs : s₀.failed = false := by rw [← hs₀]
  have hvalue := (returns_parseJson P.parseFuel).1 0 s₀ P.text hs List.suffix_rfl le_rfl
  rw [hstart] at hvalue
  rw [parse]
  refine hvalue.bind fun j s' hj => ?_
  rcases hj with hfail | ⟨-, r, hj, rfl⟩
  · -- a failed parser still looks for garbage, and keeps its first message
    have hgarbage := returns_consumeGarbage_failed hfail.failed (List.drop_suffix s'.i P.text)
    rw [cursor_drop hfail.inside] at hgarbage
    refine hgarbage.bind fun _ s'' h => ?_
    rw [returns_bind_exec (exec_get _), if_pos h.failed, returns_pure]
    exact Or.inl ⟨rfl, hfail.trans h⟩
  · have hr : r <:+ P.text := hj.suffix
    rcases ends_consumeGarbage hs hr with ⟨u, hu, hexec⟩ | ⟨-, hret⟩
    · have hnot : ¬ (P.cursor s₀ u).failed = true := by
        rw [cursor_failed, hs]
        exact Bool.false_ne_true
      have hut : u <:+ P.text := hu.suffix.trans hr
      have hi := cursor_i_add (s := s₀) hut
      rw [returns_bind_exec hexec, returns_bind_exec (exec_get _), if_neg hnot]
      by_cases hend : (P.cursor s₀ u).i ≠ P.text.length
      · rw [if_pos hend, returns_bind_exec (exec_charAt_zero hut)]
        exact (returns_fail_value (List.append_ne_nil_of_left_ne_nil (by decide) _) _).mono
          fun _ _ h => Or.inl h
      · have hnil : u = [] := List.length_eq_zero_iff.mp (by omega)
        subst hnil
        rw [if_neg hend, returns_pure]
        refine Or.inr ⟨⟨r, hj, hu⟩, ?_⟩
        rw [← hs₀]
        rfl
    · refine hret.bind fun _ s' h => ?_
      rw [returns_bind_exec (exec_get _), if_pos h.failed, returns_pure]
      exact Or.inl ⟨rfl, h⟩

/-! ### Several values -/

theorem Values.suffix {strategy : JsonParse} {strtod : Str → BitVec 32} {js : List Json}
    (h : Values strategy strtod n t js u) : u <:+ t := by
  induction h with
  | nil => exact List.suffix_rfl
  | snoc _ hj hr ih => exact hr.suffix.trans (hj.suffix.trans ih)

/-- The loop of `parse_multi`, in front of what is behind the values it has read. -/
theorem returns_multiLoop (hs : s.failed = false) {fuel : ℕ} {t : Str} {vec : List Json}
    (hfuel : t.length < fuel) (ht : t <:+ P.text)
    (hvec : Values P.strategy P.strtod maxDepth P.text vec t) :
    Returns (P.multiLoop fuel (P.cursor s t).i vec) (P.cursor s t) fun o s' =>
      (∃ u, Values P.strategy P.strtod maxDepth P.text o.2.dropLast u ∧ o.1 = (P.cursor s u).i ∧
        o.2 ≠ [] ∧ P.Failed s s') ∨
      Values P.strategy P.strtod maxDepth P.text o.2 [] ∧ o.1 = P.text.length ∧
        s' = P.cursor s [] := by
  induction fuel generalizing t vec with
  | zero => omega
  | succ fuel ih =>
    have hi := cursor_i_add (s := s) ht
    have hnot : ∀ u : Str, ¬ (P.cursor s u).failed = true := fun u => by
      rw [cursor_failed, hs]
      exact Bool.false_ne_true
    rw [multiLoop, returns_bind_exec (exec_get _)]
    by_cases hend : (P.cursor s t).i = P.text.length
    · have hnil : t = [] := List.length_eq_zero_iff.mp (by omega)
      subst hnil
      rw [if_pos (Or.inl hend), returns_pure]
      exact Or.inr ⟨hvec, hend, rfl⟩
    rw [if_neg (not_or.mpr ⟨hend, hnot t⟩)]
    have hfuel' : 2 * t.length + 2 ≤ P.parseFuel := by
      have hle := ht.length_le
      unfold parseFuel
      omega
    -- what the loop returns when the value or the garbage behind it fails
    have hfailed : ∀ (j : Json) (s' : JsonParser), P.Failed s s' →
        ∃ u, Values P.strategy P.strtod maxDepth P.text (vec ++ [j]).dropLast u ∧
          (P.cursor s t).i = (P.cursor s u).i ∧ vec ++ [j] ≠ [] ∧ P.Failed s s' := fun j s' h =>
      ⟨t, by rw [List.dropLast_concat]; exact hvec, rfl,
        List.append_ne_nil_of_right_ne_nil _ (List.cons_ne_nil j []), h⟩
    refine ((returns_parseJson P.parseFuel).1 0 s t hs ht hfuel').bind fun j s' hj => ?_
    rcases hj with hfail | ⟨-, r, hj, rfl⟩
    · rw [returns_bind_exec (exec_get _), if_pos hfail.failed, returns_pure]
      exact Or.inl (hfailed j s' hfail)
    have hr : r <:+ P.text := hj.suffix.trans ht
    rw [returns_bind_exec (exec_get _), if_neg (hnot r)]
    rcases ends_consumeGarbage hs hr with ⟨u, hu, hexec⟩ | ⟨-, hret⟩
    · rw [returns_bind_exec hexec, returns_bind_exec (exec_get _), if_neg (hnot u)]
      obtain ⟨c, w, hw, -⟩ := hj.starts
      have hlt := hw.length_lt
      have hle := (hu.suffix.trans (hj.suffix_token hw)).length_le
      exact ih (by omega) (hu.suffix.trans hr) (.snoc hvec hj hu)
    · refine hret.bind fun _ s' h => ?_
      rw [returns_bind_exec (exec_get _), if_pos h.failed, returns_pure]
      exact Or.inl (hfailed j s' h)

end JsonInput

open JsonInput

/-- Whatever the text, the parser reads nothing behind it and comes back: with
null and a message, or behind the whole text with a value whose objects are
maps and that is nested at most `max_depth` deep. -/
theorem parse_total (P : JsonInput) (err : Str) :
    ∃ j s', Json.parse P err = (.ok j, s') ∧ s'.i ≤ P.text.length ∧
      (s'.failed = true ∧ j = .null ∧ s'.err ≠ [] ∨
        s'.failed = false ∧ s'.err = err ∧ s'.i = P.text.length ∧ j.Ordered ∧
          j.depth ≤ maxDepth) := by
  obtain ⟨j, s', hexec, ⟨rfl, hfail⟩ | ⟨⟨r, hj, -⟩, rfl⟩⟩ := returns_parse P err
  · exact ⟨_, s', hexec, hfail.inside, Or.inl ⟨hfail.failed, rfl, hfail.message rfl⟩⟩
  · exact ⟨j, _, hexec, le_rfl, Or.inr ⟨rfl, rfl, rfl, hj.ordered, hj.depth_le⟩⟩

/-- The parser accepts the texts of the grammar, with the values it gives them. -/
theorem parse_accepts_iff (P : JsonInput) (err : Str) (j : Json) :
    (∃ s', Json.parse P err = (.ok j, s') ∧ s'.failed = false) ↔ TextOf P maxDepth j := by
  constructor
  · rintro ⟨s', hexec, hs'⟩
    obtain ⟨j', s'', hexec', h⟩ := returns_parse P err
    have heq := hexec.symm.trans hexec'
    cases heq
    rcases h with ⟨-, hfail⟩ | ⟨htext, -⟩
    · exact absurd (hs'.symm.trans hfail.failed) Bool.false_ne_true
    · exact htext
  · intro h
    exact ⟨_, exec_parse h err, rfl⟩

/-- What is accepted without comments is accepted with them, with the same value. -/
theorem parse_comments (text : Str) (strtod : Str → BitVec 32) (err : Str) {j : Json}
    {s' : JsonParser} (h : Json.parse ⟨text, .STANDARD, strtod⟩ err = (.ok j, s'))
    (hs' : s'.failed = false) :
    Json.parse ⟨text, .COMMENTS, strtod⟩ err = (.ok j, s') := by
  obtain ⟨j', s'', hexec, ⟨-, hfail⟩ | ⟨⟨r, hj, hr⟩, rfl⟩⟩ :=
    returns_parse ⟨text, .STANDARD, strtod⟩ err
  · have heq := h.symm.trans hexec
    cases heq
    exact absurd (hs'.symm.trans hfail.failed) Bool.false_ne_true
  · have heq := h.symm.trans hexec
    cases heq
    exact exec_parse (P := ⟨text, .COMMENTS, strtod⟩) ⟨r, hj.comments, hr.comments (by decide)⟩ err

theorem parse_comments_array :
    Json.parse ⟨str "[ ]", .COMMENTS, atoi⟩ [] = (.ok (.array []), ⟨3, [], false⟩) :=
  parse_comments (str "[ ]") atoi [] rfl rfl

/-- Several values in one text: the parser comes back with the values in front
of the position where it stops.  Without an error this is the end of the text;
with one, the last item it returns is of the value that could not be read. -/
theorem parseMulti_total (P : JsonInput) (err : Str) :
    ∃ k vec s', Json.parseMulti P err = (.ok (k, vec), s') ∧ s'.i ≤ P.text.length ∧
      (s'.failed = false ∧ s'.err = err ∧ k = P.text.length ∧
          Values P.strategy P.strtod maxDepth P.text vec [] ∨
        s'.failed = true ∧ s'.err ≠ [] ∧ vec ≠ [] ∧
          Values P.strategy P.strtod maxDepth P.text vec.dropLast (P.text.drop k)) := by
  have hmulti := @returns_multiLoop P ⟨0, err, false⟩ rfl P.loopFuel P.text []
    (lt_loopFuel List.suffix_rfl) List.suffix_rfl .nil
  rw [cursor_start] at hmulti
  obtain ⟨⟨k, vec⟩, s', hexec, ⟨u, hvec, hk, hne, hfail⟩ | ⟨hvec, hk, rfl⟩⟩ := hmulti
  · refine ⟨k, vec, s', hexec, hfail.inside, Or.inr ⟨hfail.failed, hfail.message rfl, hne, ?_⟩⟩
    have hdrop := drop_cursor (s := ⟨0, err, false⟩) (Values.suffix hvec)
    have hk' : k = (P.cursor ⟨0, err, false⟩ u).i := hk
    rw [hk', hdrop]
    exact hvec
  · exact ⟨k, vec, _, hexec, Nat.sub_le .., Or.inl ⟨rfl, rfl, hk, hvec⟩⟩

end KeystoneSdk
