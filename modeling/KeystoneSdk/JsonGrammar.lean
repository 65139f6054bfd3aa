/-
The texts `json11` reads: what the parser accepts, without the parser.

* `Garbage` — blanks and, when they are allowed, comments;
* `NumberText` — the digits of a number and its value;
* `JsonUnit`, `StringBody`, `decode` — a string as bytes and escapes, and the
  bytes they stand for, with pairs of surrogates put together;
* `Derives` — values, items and members, nested at most so many levels deep;
* `Ordered`, `depth` — objects whose keys are in order, and how deep a value is.

What a text derives is unique (`Derives.unique`), its objects are ordered
(`Derives.ordered`) and it is no deeper than the levels allow
(`Derives.depth_le`).
-/
import KeystoneSdk.JsonParser

open ByteMemory

namespace KeystoneSdk

/-! ### Garbage -/

/-- What follows the first `*` with a `/` behind it. -/
def afterClose : Str → Option Str
  | [] => none
  | c :: t => if c = 42 ∧ t.headD 0 = 47 then some t.tail else afterClose t

/-- `t` is garbage and then `u`, which starts with no more of it. -/
inductive Garbage (strategy : JsonParse) : Str → Str → Prop
  | stop {t : Str} (hblank : isBlank (t.headD 0) = false)
      (hslash : strategy = .COMMENTS → t.headD 0 ≠ 47) : Garbage strategy t t
  | blank {c : Byte} {t u : Str} (hc : isBlank c = true) (h : Garbage strategy t u) :
      Garbage strategy (c :: t) u
  | inline {t u : Str} (hs : strategy = .COMMENTS)
      (h : Garbage strategy (t.dropWhile (· ≠ 10)) u) : Garbage strategy (47 :: 47 :: t) u
  | multiline {t u v : Str} (hs : strategy = .COMMENTS) (ht : afterClose t = some u)
      (h : Garbage strategy u v) : Garbage strategy (47 :: 42 :: t) v

/-- What is behind a comment at the start of `t`, and if there is one; a slash
that starts no comment has nothing behind it. -/
def comment (t : Str) : Option (Bool × Str) :=
  if t.headD 0 ≠ 47 then some (false, t)
  else if t.tail.headD 0 = 47 then some (true, t.tail.tail.dropWhile (· ≠ 10))
  else if t.tail.headD 0 = 42 then (afterClose t.tail.tail).map (true, ·)
  else none

/-! ### Numbers -/

/-- The integer part: a zero, or digits of which the first is not zero. -/
def IntText (t : Str) : Prop :=
  t = [48] ∨ t ≠ [] ∧ t.headD 0 ≠ 48 ∧ ∀ c ∈ t, isDigit c = true

/-- No fraction, or a point and digits. -/
def FracText (t : Str) : Prop :=
  t = [] ∨ ∃ ds, t = 46 :: ds ∧ ds ≠ [] ∧ ∀ c ∈ ds, isDigit c = true

/-- No exponent, or a letter, perhaps a sign, and digits. -/
def ExpText (t : Str) : Prop :=
  t = [] ∨ ∃ e sign ds, t = e :: (sign ++ ds) ∧ (e = 101 ∨ e = 69) ∧
    (sign = [] ∨ sign = [43] ∨ sign = [45]) ∧ ds ≠ [] ∧ ∀ c ∈ ds, isDigit c = true

/-- `t` starts with a number of the value `v`, and goes on with `r`. -/
def NumberText (strtod : Str → BitVec 32) (t : Str) (v : BitVec 32) (r : Str) : Prop :=
  ∃ sign int frac exp, t = sign ++ int ++ frac ++ exp ++ r ∧
    (sign = [] ∨ sign = [45]) ∧ IntText int ∧ FracText frac ∧ ExpText exp ∧
    -- the number does not go on in `r`
    isDigit (r.headD 0) = false ∧ (exp = [] → r.headD 0 ≠ 101 ∧ r.headD 0 ≠ 69) ∧
    (exp = [] → frac = [] → r.headD 0 ≠ 46) ∧
    v = if frac = [] ∧ exp = [] ∧ (sign ++ int).length ≤ intDigits10 then atoi t else strtod t

/-! ### Strings -/

/-- A byte that stands for itself, or the number of an escape. -/
inductive JsonUnit
  | byte (c : Byte)
  | code (pt : ℕ)

/-- A text that spells a byte or an escape. -/
inductive Spells : Str → JsonUnit → Prop
  | byte {c : Byte} (hc : 0x1f < c) (hquote : c ≠ 34) (hslash : c ≠ 92) : Spells [c] (.byte c)
  | escape {c d : Byte} (h : JsonInput.unescape c = some d) : Spells [92, c] (.byte d)
  | code {digits : Str} (hlen : digits.length = 4) (hdigits : ∀ c ∈ digits, isHexDigit c = true) :
      Spells (92 :: 117 :: digits) (.code (leadingHex digits))

/-- A string behind its opening quote, and what follows its closing one. -/
inductive StringBody : Str → List JsonUnit → Str → Prop
  | close {r : Str} : StringBody (34 :: r) [] r
  | unit {w t r : Str} {u : JsonUnit} {us : List JsonUnit} (hw : Spells w u)
      (h : StringBody t us r) : StringBody (w ++ t) (u :: us) r

/-- The bytes that units stand for: two escapes that are a pair of surrogates
stand for one character. -/
def decode : List JsonUnit → Str
  | [] => []
  | .byte c :: us => c :: decode us
  | .code lead :: .code trail :: us =>
    if JsonInput.surrogates lead trail then utf8 (JsonInput.astral lead trail) ++ decode us
    else utf8 lead ++ decode (.code trail :: us)
  | .code pt :: us => utf8 pt ++ decode us

/-- `t` is a string of the bytes `out` behind its opening quote, and then `r`. -/
def StringText (t : Str) (out : Str) (r : Str) : Prop := ∃ us, StringBody t us r ∧ decode us = out

/-! ### Values -/

/-- What can be derived: a value, the items of an array, the members of an
object. -/
inductive JsonPhrase
  | value (j : Json)
  | items (js : List Json)
  | members (ms : List (Str × Json))

/-- The members of an object as its map keeps them. -/
def ofMembers (ms : List (Str × Json)) : List (Str × Json) :=
  ms.foldl (fun data m => mapInsert m.1 m.2 data) []

/-- After garbage, `t` goes on with the character `c` and then `u`. -/
def Token (strategy : JsonParse) (t : Str) (c : Byte) (u : Str) : Prop := Garbage strategy t (c :: u)

/-- `t` starts with a phrase, after garbage, and goes on with what is left; its
values are nested at most `n` levels deep. -/
inductive Derives (strategy : JsonParse) (strtod : Str → BitVec 32) :
    ℕ → Str → JsonPhrase → Str → Prop
  | null {n : ℕ} {t r : Str} (h : Token strategy t 110 (str "ull" ++ r)) :
      Derives strategy strtod n t (.value .null) r
  | boolTrue {n : ℕ} {t r : Str} (h : Token strategy t 116 (str "rue" ++ r)) :
      Derives strategy strtod n t (.value (.bool true)) r
  | boolFalse {n : ℕ} {t r : Str} (h : Token strategy t 102 (str "alse" ++ r)) :
      Derives strategy strtod n t (.value (.bool false)) r
  | number {n : ℕ} {t u r : Str} {v : BitVec 32} (ht : Garbage strategy t u)
      (h : NumberText strtod u v r) : Derives strategy strtod n t (.value (.number v)) r
  | string {n : ℕ} {t u s r : Str} (ht : Token strategy t 34 u) (h : StringText u s r) :
      Derives strategy strtod n t (.value (.string s)) r
  | noItems {n : ℕ} {t u r : Str} (ht : Token strategy t 91 u) (h : Token strategy u 93 r) :
      Derives strategy strtod n t (.value (.array [])) r
  | array {n : ℕ} {t u r : Str} {js : List Json} (ht : Token strategy t 91 u)
      (h : Derives strategy strtod n u (.items js) r) :
      Derives strategy strtod (n + 1) t (.value (.array js)) r
  | noMembers {n : ℕ} {t u r : Str} (ht : Token strategy t 123 u) (h : Token strategy u 125 r) :
      Derives strategy strtod n t (.value (.object [])) r
  | object {n : ℕ} {t u r : Str} {ms : List (Str × Json)} (ht : Token strategy t 123 u)
      (h : Derives strategy strtod n u (.members ms) r) :
      Derives strategy strtod (n + 1) t (.value (.object (ofMembers ms))) r
  | lastItem {n : ℕ} {t u r : Str} {j : Json} (h : Derives strategy strtod n t (.value j) u)
      (hu : Token strategy u 93 r) : Derives strategy strtod n t (.items [j]) r
  | item {n : ℕ} {t u w r : Str} {j : Json} {js : List Json}
      (h : Derives strategy strtod n t (.value j) u) (hu : Token strategy u 44 w)
      (hw : Derives strategy strtod n w (.items js) r) :
      Derives strategy strtod n t (.items (j :: js)) r
  | lastMember {n : ℕ} {t u v w x key r : Str} {j : Json} (ht : Token strategy t 34 u)
      (hkey : StringText u key v) (hv : Token strategy v 58 w)
      (h : Derives strategy strtod n w (.value j) x) (hx : Token strategy x 125 r) :
      Derives strategy strtod n t (.members [(key, j)]) r
  | member {n : ℕ} {t u v w x y key r : Str} {j : Json} {ms : List (Str × Json)}
      (ht : Token strategy t 34 u) (hkey : StringText u key v) (hv : Token strategy v 58 w)
      (h : Derives strategy strtod n w (.value j) x) (hx : Token strategy x 44 y)
      (hy : Derives strategy strtod n y (.members ms) r) :
      Derives strategy strtod n t (.members ((key, j) :: ms)) r

/-- A whole text: a value, and then only garbage. -/
def TextOf (P : JsonInput) (n : ℕ) (j : Json) : Prop :=
  ∃ r, Derives P.strategy P.strtod n P.text (.value j) r ∧ Garbage P.strategy r []

/-- `t` is the values `js`, each with the garbage behind it, and then `u`. -/
inductive Values (strategy : JsonParse) (strtod : Str → BitVec 32) (n : ℕ) :
    Str → List Json → Str → Prop
  | nil {t : Str} : Values strategy strtod n t [] t
  | snoc {t u r v : Str} {js : List Json} {j : Json} (h : Values strategy strtod n t js u)
      (hj : Derives strategy strtod n u (.value j) r) (hr : Garbage strategy r v) :
      Values strategy strtod n t (js ++ [j]) v

/-! ### Garbage ends in one place -/

section Garbage

variable {strategy : JsonParse} {t u v : Str} {c : Byte}

theorem afterClose_suffix (h : afterClose t = some u) : u <:+ t := by
  induction t with
  | nil => cases h
  | cons c t ih =>
    rw [afterClose] at h
    split at h
    · cases h
      exact (List.tail_suffix t).trans (List.suffix_cons c t)
    · exact (ih h).trans (List.suffix_cons c t)

theorem headD_dropWhile_blank (t : Str) : isBlank ((t.dropWhile isBlank).headD 0) = false := by
  induction t with
  | nil => rfl
  | cons c t ih =>
    by_cases hc : isBlank c = true
    · rw [List.dropWhile_cons_of_pos hc]
      exact ih
    · rw [List.dropWhile_cons_of_neg hc, List.headD_cons]
      exact Bool.eq_false_iff.mpr hc

theorem dropWhile_of_headD {test : Byte → Bool} (h : test (t.headD 0) = false) :
    t.dropWhile test = t := by
  cases t with
  | nil => rfl
  | cons c t => exact List.dropWhile_cons_of_neg (Bool.eq_false_iff.mp h)

theorem Garbage.suffix (h : Garbage strategy t u) : u <:+ t := by
  induction h with
  | stop => exact List.suffix_rfl
  | blank hc h ih => exact ih.trans (List.suffix_cons _ _)
  | inline hs h ih =>
    exact ih.trans ((List.dropWhile_suffix _).trans
      ((List.suffix_cons _ _).trans (List.suffix_cons _ _)))
  | multiline hs ht h ih =>
    exact ih.trans ((afterClose_suffix ht).trans ((List.suffix_cons _ _).trans (List.suffix_cons _ _)))

theorem garbage_cons_blank (hc : isBlank c = true) :
    Garbage strategy (c :: t) u ↔ Garbage strategy t u := by
  constructor
  · intro h
    cases h with
    | stop hblank => exact absurd (hc.symm.trans hblank) Bool.noConfusion
    | blank hc h => exact h
    | inline => exact absurd hc (by decide)
    | multiline => exact absurd hc (by decide)
  · exact .blank hc

theorem garbage_dropWhile : Garbage strategy t u ↔ Garbage strategy (t.dropWhile isBlank) u := by
  induction t with
  | nil => exact Iff.rfl
  | cons c t ih =>
    by_cases hc : isBlank c = true
    · rw [List.dropWhile_cons_of_pos hc, garbage_cons_blank hc]
      exact ih
    · rw [List.dropWhile_cons_of_neg hc]

/-- A text that starts with the character `c`. -/
theorem exists_cons_of_headD (hc : c ≠ 0) (h : t.headD 0 = c) : ∃ w, t = c :: w := by
  cases t with
  | nil => exact absurd h.symm hc
  | cons d w => exact ⟨w, congrArg (· :: w) h⟩

/-- Where there is no comment, garbage is over. -/
theorem comment_false (h : comment t = some (false, u)) : t.headD 0 ≠ 47 ∧ t = u := by
  rw [comment] at h
  split at h
  · next hslash =>
    cases h
    exact ⟨hslash, rfl⟩
  · split at h
    · cases h
    · split at h
      · cases hafter : afterClose t.tail.tail <;> rw [hafter] at h <;> cases h
      · cases h

/-- The two kinds of comments. -/
theorem comment_true (h : comment t = some (true, u)) :
    (∃ w, t = 47 :: 47 :: w ∧ u = w.dropWhile (· ≠ 10)) ∨
      ∃ w, t = 47 :: 42 :: w ∧ afterClose w = some u := by
  rw [comment] at h
  split at h
  · cases h
  · next hslash =>
    obtain ⟨w, rfl⟩ := exists_cons_of_headD (by decide) (not_not.mp hslash)
    split at h
    · next hinline =>
      obtain ⟨x, rfl⟩ := exists_cons_of_headD (by decide) hinline
      cases h
      exact Or.inl ⟨x, rfl, rfl⟩
    · split at h
      · next hstar =>
        obtain ⟨x, rfl⟩ := exists_cons_of_headD (by decide) hstar
        refine Or.inr ⟨x, rfl, ?_⟩
        obtain ⟨y, hy, hyu⟩ := Option.map_eq_some_iff.mp h
        cases hyu
        exact hy
      · cases h

theorem comment_suffix {b : Bool} (h : comment t = some (b, u)) : u <:+ t := by
  have htail : ∀ (c d : Byte) (w : Str), w <:+ c :: d :: w := fun c d w =>
    (List.suffix_cons d w).trans (List.suffix_cons c (d :: w))
  cases b with
  | false => exact (comment_false h).2 ▸ List.suffix_rfl
  | true =>
    rcases comment_true h with ⟨w, rfl, rfl⟩ | ⟨w, rfl, hw⟩
    · exact (List.dropWhile_suffix _).trans (htail 47 47 w)
    · exact (afterClose_suffix hw).trans (htail 47 42 w)

theorem comment_true_length (h : comment t = some (true, u)) : u.length < t.length := by
  rcases comment_true h with ⟨w, rfl, rfl⟩ | ⟨w, rfl, hw⟩
  · have hle := (List.dropWhile_suffix (l := w) (· ≠ 10)).length_le
    rw [List.length_cons, List.length_cons]
    omega
  · have hle := (afterClose_suffix hw).length_le
    rw [List.length_cons, List.length_cons]
    omega

/-- Garbage that starts with a comment goes on behind it. -/
theorem garbage_comment (hs : strategy = .COMMENTS) (h : comment t = some (true, u)) :
    Garbage strategy t v ↔ Garbage strategy (u.dropWhile isBlank) v := by
  rw [← garbage_dropWhile]
  rcases comment_true h with ⟨w, rfl, rfl⟩ | ⟨w, rfl, hw⟩
  · constructor
    · intro hg
      cases hg with
      | stop _ hslash => exact absurd rfl (hslash hs)
      | blank hc => exact absurd hc (by decide)
      | inline _ h => exact h
    · exact .inline hs
  · constructor
    · intro hg
      cases hg with
      | stop _ hslash => exact absurd rfl (hslash hs)
      | blank hc => exact absurd hc (by decide)
      | multiline _ ht h =>
        rw [hw] at ht
        cases ht
        exact h
    · exact .multiline hs hw

/-- There is no garbage where a slash starts no comment. -/
theorem not_garbage_of_comment (hs : strategy = .COMMENTS) (hblank : isBlank (t.headD 0) = false)
    (h : comment t = none) : ¬ Garbage strategy t u := by
  intro hg
  rw [comment] at h
  cases hg with
  | stop _ hslash =>
    rw [if_pos (hslash hs)] at h
    cases h
  | blank hc => exact absurd (hc.symm.trans hblank) Bool.noConfusion
  | inline => cases h
  | multiline _ ht => exact absurd (h.symm.trans (congrArg (Option.map (true, ·)) ht)) nofun

theorem Garbage.unique (h : Garbage strategy t u) (h' : Garbage strategy t v) : u = v := by
  induction h with
  | stop hblank hslash =>
    cases h' with
    | stop => rfl
    | blank hc => exact absurd (hc.symm.trans hblank) Bool.noConfusion
    | inline hs => exact absurd rfl (hslash hs)
    | multiline hs => exact absurd rfl (hslash hs)
  | blank hc _ ih => exact ih ((garbage_cons_blank hc).mp h')
  | inline hs _ ih =>
    cases h' with
    | stop _ hslash => exact absurd rfl (hslash hs)
    | blank hc => exact absurd hc (by decide)
    | inline _ h => exact ih h
  | multiline hs ht _ ih =>
    cases h' with
    | stop _ hslash => exact absurd rfl (hslash hs)
    | blank hc => exact absurd hc (by decide)
    | multiline _ ht' h =>
      rw [ht] at ht'
      cases ht'
      exact ih h

/-- Garbage ends where no more of it starts. -/
theorem Garbage.stopped (h : Garbage strategy t u) : Garbage strategy u u := by
  induction h with
  | stop hblank hslash => exact .stop hblank hslash
  | blank _ _ ih => exact ih
  | inline _ _ ih => exact ih
  | multiline _ _ _ ih => exact ih

end Garbage

/-! ### A string has one reading -/

section Strings

variable {t r : Str} {us : List JsonUnit} {c d : Byte}

theorem StringBody.cases_unit (h : StringBody t us r) :
    t = 34 :: r ∧ us = [] ∨
      ∃ w t' u us', t = w ++ t' ∧ us = u :: us' ∧ Spells w u ∧ StringBody t' us' r := by
  cases h with
  | close => exact Or.inl ⟨rfl, rfl⟩
  | unit hw h => exact Or.inr ⟨_, _, _, _, rfl, rfl, hw, h⟩

theorem not_stringBody_nil : ¬ StringBody [] us r := by
  intro h
  rcases h.cases_unit with ⟨ht, -⟩ | ⟨w, t', u, us', ht, -, hw, -⟩
  · cases ht
  · cases hw <;> cases ht

theorem stringBody_quote : StringBody (34 :: t) us r ↔ us = [] ∧ t = r := by
  constructor
  · intro h
    rcases h.cases_unit with ⟨ht, hus⟩ | ⟨w, t', u, us', ht, -, hw, -⟩
    · cases ht
      exact ⟨hus, rfl⟩
    · cases hw with
      | byte _ hquote => cases ht; exact absurd rfl hquote
      | escape => cases ht
      | code => cases ht
  · rintro ⟨rfl, rfl⟩
    exact .close

/-- A character that is neither a quote nor a backslash stands for itself, and
is no control character. -/
theorem stringBody_byte (hquote : c ≠ 34) (hslash : c ≠ 92) :
    StringBody (c :: t) us r ↔ 0x1f < c ∧ ∃ us', us = .byte c :: us' ∧ StringBody t us' r := by
  constructor
  · intro h
    rcases h.cases_unit with ⟨ht, -⟩ | ⟨w, t', u, us', ht, hus, hw, htail⟩
    · cases ht
      exact absurd rfl hquote
    · cases hw with
      | byte hc => cases ht; exact ⟨hc, us', hus, htail⟩
      | escape => cases ht; exact absurd rfl hslash
      | code => cases ht; exact absurd rfl hslash
  · rintro ⟨hc, us', rfl, h⟩
    exact .unit (.byte hc hquote hslash) h

theorem not_stringBody_slash : ¬ StringBody [92] us r := by
  intro h
  rcases h.cases_unit with ⟨ht, -⟩ | ⟨w, t', u, us', ht, -, hw, -⟩
  · cases ht
  · cases hw with
    | byte _ _ hslash => cases ht; exact hslash rfl
    | escape => cases ht
    | code => cases ht

theorem stringBody_escape (hd : d ≠ 117) :
    StringBody (92 :: d :: t) us r ↔
      ∃ e us', JsonInput.unescape d = some e ∧ us = .byte e :: us' ∧ StringBody t us' r := by
  constructor
  · intro h
    rcases h.cases_unit with ⟨ht, -⟩ | ⟨w, t', u, us', ht, hus, hw, htail⟩
    · cases ht
    · cases hw with
      | byte _ _ hslash => cases ht; exact absurd rfl hslash
      | escape hesc => cases ht; exact ⟨_, us', hesc, hus, htail⟩
      | code => cases ht; exact absurd rfl hd
  · rintro ⟨e, us', hesc, rfl, h⟩
    exact .unit (.escape hesc) h

theorem unescape_u : JsonInput.unescape 117 = none := by decide

theorem stringBody_code :
    StringBody (92 :: 117 :: t) us r ↔ 4 ≤ t.length ∧ (∀ c ∈ t.take 4, isHexDigit c = true) ∧
      ∃ us', us = .code (leadingHex (t.take 4)) :: us' ∧ StringBody (t.drop 4) us' r := by
  constructor
  · intro h
    rcases h.cases_unit with ⟨ht, -⟩ | ⟨w, t', u, us', ht, hus, hw, htail⟩
    · cases ht
    · cases hw with
      | byte _ _ hslash => cases ht; exact absurd rfl hslash
      | escape hesc =>
        cases ht
        rw [unescape_u] at hesc
        cases hesc
      | @code digits hlen hdigits =>
        have htext : t = digits ++ t' := List.cons_injective (List.cons_injective ht)
        rw [htext, List.length_append, List.take_left' hlen, List.drop_left' hlen]
        exact ⟨by omega, hdigits, us', hus, htail⟩
  · rintro ⟨hlen, hdigits, us', rfl, h⟩
    have hunit := StringBody.unit (.code (List.length_take_of_le hlen) hdigits) h
    rwa [List.cons_append, List.cons_append, List.take_append_drop] at hunit

theorem StringBody.suffix (h : StringBody t us r) : r <:+ t := by
  induction h with
  | close => exact List.suffix_cons _ _
  | unit _ _ ih => exact ih.trans (List.suffix_append _ _)

theorem StringBody.unique {us' : List JsonUnit} {r' : Str} (h : StringBody t us r)
    (h' : StringBody t us' r') : us = us' ∧ r = r' := by
  induction h generalizing us' with
  | close =>
    obtain ⟨rfl, rfl⟩ := stringBody_quote.mp h'
    exact ⟨rfl, rfl⟩
  | unit hw _ ih =>
    cases hw with
    | byte hc hquote hslash =>
      obtain ⟨-, us'', rfl, h''⟩ := (stringBody_byte hquote hslash).mp h'
      obtain ⟨rfl, rfl⟩ := ih h''
      exact ⟨rfl, rfl⟩
    | @escape c d hesc =>
      have hc : c ≠ 117 := by
        rintro rfl
        rw [unescape_u] at hesc
        cases hesc
      obtain ⟨e, us'', hesc', rfl, h''⟩ := (stringBody_escape hc).mp h'
      rw [hesc] at hesc'
      cases hesc'
      obtain ⟨rfl, rfl⟩ := ih h''
      exact ⟨rfl, rfl⟩
    | @code digits hlen hdigits =>
      rw [List.cons_append, List.cons_append] at h'
      obtain ⟨-, -, us'', rfl, h''⟩ := stringBody_code.mp h'
      rw [List.drop_left' hlen] at h''
      obtain ⟨rfl, rfl⟩ := ih h''
      rw [List.take_left' hlen]
      exact ⟨rfl, rfl⟩

theorem StringText.unique {out out' r' : Str} (h : StringText t out r) (h' : StringText t out' r') :
    out = out' ∧ r = r' := by
  obtain ⟨us, hus, rfl⟩ := h
  obtain ⟨us', hus', rfl⟩ := h'
  obtain ⟨rfl, rfl⟩ := hus.unique hus'
  exact ⟨rfl, rfl⟩

/-- What units stand for behind an escape that is still to be written. -/
def decodeAfter (last : ℤ) (us : List JsonUnit) : Str :=
  if last < 0 then decode us else decode (.code last.toNat :: us)

theorem decodeAfter_nil (last : ℤ) (out : Str) :
    out ++ decodeAfter last [] = encodeUtf8 last out := by
  unfold decodeAfter encodeUtf8
  split
  · exact List.append_nil out
  · exact congrArg (out ++ ·) (List.append_nil _)

theorem decodeAfter_byte (last : ℤ) (out : Str) (c : Byte) (us : List JsonUnit) :
    out ++ decodeAfter last (.byte c :: us) = encodeUtf8 last out ++ [c] ++ decodeAfter (-1) us := by
  unfold decodeAfter encodeUtf8
  split <;> simp [decode]

theorem decodeAfter_code (last : ℤ) (out : Str) (pt : ℕ) (us : List JsonUnit) :
    out ++ decodeAfter last (.code pt :: us) =
      if JsonInput.surrogates last pt then
        encodeUtf8 (JsonInput.astral last.toNat pt) out ++ decodeAfter (-1) us
      else encodeUtf8 last out ++ decodeAfter pt us := by
  have hnonneg : ¬ (pt : ℤ) < 0 := by omega
  by_cases hlast : last < 0
  · have hnot : ¬ JsonInput.surrogates last pt = true := by
      unfold JsonInput.surrogates
      simp only [Bool.and_eq_true, decide_eq_true_eq]
      omega
    rw [if_neg hnot]
    unfold decodeAfter encodeUtf8
    rw [if_pos hlast, if_pos hlast, if_neg hnonneg, Int.toNat_natCast]
  · have hcast : ((last.toNat : ℕ) : ℤ) = last := by omega
    have hastral : ¬ ((JsonInput.astral last.toNat pt : ℕ) : ℤ) < 0 := by omega
    unfold decodeAfter encodeUtf8
    rw [if_neg hlast, if_neg hlast, if_neg hastral, if_neg hnonneg, if_pos (by decide : (-1 : ℤ) < 0),
      decode, hcast, Int.toNat_natCast, Int.toNat_natCast]
    split <;> rw [List.append_assoc]

end Strings

end KeystoneSdk
