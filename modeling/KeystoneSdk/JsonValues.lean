/-
Facts about what the grammar of `json11` derives.

* `Derives.suffix`, `Derives.of_garbage` — what is left, and garbage in front;
* `Derives.unique` — a text has one reading, however deep it may nest;
* `Derives.comments` — and the same one where comments are allowed;
* `Ordered`, `Derives.ordered` — the keys of a map are in order;
* `depth`, `Derives.depth_le` — no value is nested deeper than the levels allow.
-/
import KeystoneSdk.JsonNumbers

open ByteMemory

namespace KeystoneSdk

variable {strategy : JsonParse} {strtod : Str → BitVec 32} {n m : ℕ} {t u r r' : Str} {c c' : Byte}
  {j j' : Json} {js js' : List Json} {ms ms' : List (Str × Json)} {p q : JsonPhrase}

/-! ### Tokens -/

theorem Token.suffix (h : Token strategy t c u) : u <:+ t :=
  (List.suffix_cons c u).trans (Garbage.suffix h)

theorem Token.length_lt (h : Token strategy t c u) : u.length < t.length :=
  (Garbage.suffix h).length_le

theorem Token.unique (h : Token strategy t c u) (h' : Token strategy t c' r) : c = c' ∧ u = r := by
  have heq := Garbage.unique h h'
  cases heq
  exact ⟨rfl, rfl⟩

theorem Token.of_garbage (hg : Garbage strategy t u) :
    Token strategy u c r ↔ Token strategy t c r := by
  constructor
  · intro h
    have hu : u = c :: r := Garbage.unique hg.stopped h
    rwa [hu] at hg
  · intro h
    have hu : u = c :: r := Garbage.unique hg h
    have hstop := hg.stopped
    rwa [hu] at hstop ⊢

theorem StringText.suffix {s : Str} (h : StringText t s r) : r <:+ t := by
  obtain ⟨us, hus, -⟩ := h
  exact hus.suffix

/-! ### What is left -/

theorem Derives.suffix (h : Derives strategy strtod n t p r) : r <:+ t := by
  induction h with
  | null h => exact (List.suffix_append _ _).trans h.suffix
  | boolTrue h => exact (List.suffix_append _ _).trans h.suffix
  | boolFalse h => exact (List.suffix_append _ _).trans h.suffix
  | number ht h => exact h.suffix.trans ht.suffix
  | string ht h => exact h.suffix.trans ht.suffix
  | noItems ht h => exact h.suffix.trans ht.suffix
  | array ht _ ih => exact ih.trans ht.suffix
  | noMembers ht h => exact h.suffix.trans ht.suffix
  | object ht _ ih => exact ih.trans ht.suffix
  | lastItem _ hu ih => exact hu.suffix.trans ih
  | item _ hu _ ih ih' => exact ih'.trans (hu.suffix.trans ih)
  | lastMember ht hkey hv _ hx ih =>
    exact hx.suffix.trans (ih.trans (hv.suffix.trans (hkey.suffix.trans ht.suffix)))
  | member ht hkey hv _ hx _ ih ih' =>
    exact ih'.trans (hx.suffix.trans (ih.trans (hv.suffix.trans (hkey.suffix.trans ht.suffix))))

/-- The characters a value starts with. -/
def Json.startsWith : Json → Byte → Bool
  | .null, c => c = 110
  | .number _, c => c = 45 || isDigit c
  | .bool true, c => c = 116
  | .bool false, c => c = 102
  | .string _, c => c = 34
  | .array _, c => c = 91
  | .object _, c => c = 123

theorem NumberText.head {v : BitVec 32} (h : NumberText strtod t v r) :
    ∃ c w, t = c :: w ∧ (c = 45 ∨ isDigit c = true) := by
  obtain ⟨sign, int, frac, exp, rfl, hsign, hint, -⟩ := h
  rcases hsign with rfl | rfl
  · have hd := hint.digit (r := frac ++ exp ++ r)
    rcases hint with rfl | ⟨hne, -, hds⟩
    · exact ⟨48, _, rfl, Or.inr rfl⟩
    · obtain ⟨d, ds, rfl⟩ := List.exists_cons_of_ne_nil hne
      exact ⟨d, _, rfl, Or.inr hd⟩
  · exact ⟨45, _, rfl, Or.inl rfl⟩

/-- The first character of a value tells what kind of value it is. -/
theorem Derives.starts (h : Derives strategy strtod n t (.value j) r) :
    ∃ c u, Token strategy t c u ∧ j.startsWith c = true := by
  cases h with
  | null h => exact ⟨_, _, h, rfl⟩
  | boolTrue h => exact ⟨_, _, h, rfl⟩
  | boolFalse h => exact ⟨_, _, h, rfl⟩
  | number ht h =>
    obtain ⟨c, w, rfl, hc⟩ := h.head
    refine ⟨c, w, ht, ?_⟩
    rw [Json.startsWith, Bool.or_eq_true, decide_eq_true_eq]
    exact hc
  | string ht => exact ⟨_, _, ht, rfl⟩
  | noItems ht => exact ⟨_, _, ht, rfl⟩
  | array ht => exact ⟨_, _, ht, rfl⟩
  | noMembers ht => exact ⟨_, _, ht, rfl⟩
  | object ht => exact ⟨_, _, ht, rfl⟩

/-- A value in front of which a token is known starts with it. -/
theorem Derives.startsWith (h : Derives strategy strtod n t (.value j) r)
    (ht : Token strategy t c u) : j.startsWith c = true := by
  obtain ⟨c', u', ht', hj⟩ := h.starts
  obtain ⟨rfl, -⟩ := ht.unique ht'
  exact hj

theorem Derives.items_starts (h : Derives strategy strtod n t (.items js) r) :
    ∃ (j : Json) (c : Byte) (u : Str), Token strategy t c u ∧ j.startsWith c = true := by
  cases h with
  | lastItem h => exact ⟨_, h.starts⟩
  | item h => exact ⟨_, h.starts⟩

theorem Derives.members_starts (h : Derives strategy strtod n t (.members ms) r) :
    ∃ u, Token strategy t 34 u := by
  cases h with
  | lastMember ht => exact ⟨_, ht⟩
  | member ht => exact ⟨_, ht⟩

theorem Derives.items_startsWith (h : Derives strategy strtod n t (.items js) r)
    (ht : Token strategy t c u) : ∃ j : Json, j.startsWith c = true := by
  cases h with
  | lastItem h => exact ⟨_, h.startsWith ht⟩
  | item h => exact ⟨_, h.startsWith ht⟩

theorem Derives.members_startsWith (h : Derives strategy strtod n t (.members ms) r)
    (ht : Token strategy t c u) : c = 34 := by
  obtain ⟨u', ht'⟩ := h.members_starts
  exact (ht.unique ht').1

/-- No value starts with a bracket that closes. -/
theorem Json.not_startsWith_bracket (j : Json) : ¬ j.startsWith 93 = true := by
  cases j with
  | bool b => cases b <;> exact Bool.false_ne_true
  | number => exact Bool.false_ne_true
  | null => exact Bool.false_ne_true
  | string => exact Bool.false_ne_true
  | array => exact Bool.false_ne_true
  | object => exact Bool.false_ne_true

/-- Garbage may come in front of a value. -/
theorem Derives.of_garbage (hg : Garbage strategy t u) (h : Derives strategy strtod n u (.value j) r) :
    Derives strategy strtod n t (.value j) r := by
  have token : ∀ {c w}, Token strategy u c w → Token strategy t c w := (Token.of_garbage hg).mp
  cases h with
  | null h => exact .null (token h)
  | boolTrue h => exact .boolTrue (token h)
  | boolFalse h => exact .boolFalse (token h)
  | number ht h =>
    have hu := Garbage.unique hg.stopped ht
    subst hu
    exact .number hg h
  | string ht h => exact .string (token ht) h
  | noItems ht h => exact .noItems (token ht) h
  | array ht h => exact .array (token ht) h
  | noMembers ht h => exact .noMembers (token ht) h
  | object ht h => exact .object (token ht) h

theorem NumberText.suffix_tail {v : BitVec 32} (h : NumberText strtod (c :: t) v r) : r <:+ t := by
  rcases List.suffix_cons_iff.mp h.suffix with rfl | hr
  · obtain ⟨sign, int, frac, exp, ht, -, hint, -⟩ := h
    have hlen := congrArg List.length ht
    have hpos : int ≠ [] := by
      rcases hint with rfl | ⟨hne, -⟩
      · exact List.cons_ne_nil _ _
      · exact hne
    have := List.length_pos_iff.mpr hpos
    simp only [List.length_append, List.length_cons] at hlen
    omega
  · exact hr

/-- What is left of a value is behind its first character. -/
theorem Derives.suffix_token (h : Derives strategy strtod n t (.value j) r)
    (ht : Token strategy t c u) : r <:+ u := by
  cases h with
  | null h => exact (ht.unique h).2 ▸ List.suffix_append _ _
  | boolTrue h => exact (ht.unique h).2 ▸ List.suffix_append _ _
  | boolFalse h => exact (ht.unique h).2 ▸ List.suffix_append _ _
  | number hg h =>
    obtain rfl := Garbage.unique ht hg
    exact h.suffix_tail
  | string h hs => exact (ht.unique h).2 ▸ hs.suffix
  | noItems h hr => exact (ht.unique h).2 ▸ hr.suffix
  | array h hr => exact (ht.unique h).2 ▸ hr.suffix
  | noMembers h hr => exact (ht.unique h).2 ▸ hr.suffix
  | object h hr => exact (ht.unique h).2 ▸ hr.suffix

/-- A blank may come in front of a phrase. -/
theorem Derives.blank (hc : isBlank c = true) (h : Derives strategy strtod n t p r) :
    Derives strategy strtod n (c :: t) p r := by
  induction h with
  | null h => exact .null (.blank hc h)
  | boolTrue h => exact .boolTrue (.blank hc h)
  | boolFalse h => exact .boolFalse (.blank hc h)
  | number ht h => exact .number (.blank hc ht) h
  | string ht h => exact .string (.blank hc ht) h
  | noItems ht h => exact .noItems (.blank hc ht) h
  | array ht h => exact .array (.blank hc ht) h
  | noMembers ht h => exact .noMembers (.blank hc ht) h
  | object ht h => exact .object (.blank hc ht) h
  | lastItem _ hu ih => exact .lastItem ih hu
  | item _ hu hw ih => exact .item ih hu hw
  | lastMember ht hkey hv h hx => exact .lastMember (.blank hc ht) hkey hv h hx
  | member ht hkey hv h hx hy => exact .member (.blank hc ht) hkey hv h hx hy

/-! ### One reading -/

/-- Values, items or members. -/
def JsonPhrase.kind : JsonPhrase → ℕ
  | value _ => 0
  | items _ => 1
  | members _ => 2

/-- The kind of a value from its first character. -/
theorem Json.eq_null_of_startsWith (h : j.startsWith 110 = true) : j = .null := by
  cases j with
  | null => rfl
  | bool b => cases b <;> cases h
  | _ => cases h

theorem Json.eq_true_of_startsWith (h : j.startsWith 116 = true) : j = .bool true := by
  cases j with
  | bool b => cases b <;> first | rfl | cases h
  | _ => cases h

theorem Json.eq_false_of_startsWith (h : j.startsWith 102 = true) : j = .bool false := by
  cases j with
  | bool b => cases b <;> first | rfl | cases h
  | _ => cases h

theorem Json.eq_string_of_startsWith (h : j.startsWith 34 = true) : ∃ s, j = .string s := by
  cases j with
  | string s => exact ⟨s, rfl⟩
  | bool b => cases b <;> cases h
  | _ => cases h

theorem Json.eq_array_of_startsWith (h : j.startsWith 91 = true) : ∃ js, j = .array js := by
  cases j with
  | array js => exact ⟨js, rfl⟩
  | bool b => cases b <;> cases h
  | _ => cases h

theorem Json.eq_object_of_startsWith (h : j.startsWith 123 = true) : ∃ ms, j = .object ms := by
  cases j with
  | object ms => exact ⟨ms, rfl⟩
  | bool b => cases b <;> cases h
  | _ => cases h

theorem Json.eq_number_of_startsWith (hc : c = 45 ∨ isDigit c = true)
    (h : j.startsWith c = true) : ∃ v, j = .number v := by
  have hne : ∀ d : Byte, (decide (d = 45) || isDigit d) = false → c ≠ d := by
    rintro d hd rfl
    rw [Bool.or_eq_false_iff, decide_eq_false_iff_not] at hd
    exact hc.elim hd.1 fun h => Bool.false_ne_true (hd.2.symm.trans h)
  cases j with
  | number v => exact ⟨v, rfl⟩
  | bool b =>
    cases b
    · exact absurd (of_decide_eq_true h) (hne 102 (by decide))
    · exact absurd (of_decide_eq_true h) (hne 116 (by decide))
  | null => exact absurd (of_decide_eq_true h) (hne 110 (by decide))
  | string => exact absurd (of_decide_eq_true h) (hne 34 (by decide))
  | array => exact absurd (of_decide_eq_true h) (hne 91 (by decide))
  | object => exact absurd (of_decide_eq_true h) (hne 123 (by decide))

theorem JsonPhrase.exists_value (h : (JsonPhrase.value j).kind = q.kind) : ∃ j', q = .value j' := by
  cases q <;> first | exact ⟨_, rfl⟩ | cases h

theorem JsonPhrase.exists_items (h : (JsonPhrase.items js).kind = q.kind) :
    ∃ js', q = .items js' := by
  cases q <;> first | exact ⟨_, rfl⟩ | cases h

theorem JsonPhrase.exists_members (h : (JsonPhrase.members ms).kind = q.kind) :
    ∃ ms', q = .members ms' := by
  cases q <;> first | exact ⟨_, rfl⟩ | cases h

/-- Tokens of different characters do not start at one place. -/
theorem Token.elim {α : Prop} (hne : c ≠ c') (h : Token strategy t c u) (h' : Token strategy t c' r) :
    α := absurd (h.unique h').1 hne

/-- A text has one reading as a value, as items and as members. -/
theorem Derives.unique (h : Derives strategy strtod n t p r) (h' : Derives strategy strtod m t q r')
    (hkind : p.kind = q.kind) : p = q ∧ r = r' := by
  -- the first token of a text says which constructor the other derivation ends in, and tokens,
  -- numbers and strings are unique in front of what is left
  induction h generalizing m q r' with
  | null h =>
    obtain ⟨j', rfl⟩ := JsonPhrase.exists_value hkind
    have hj := Json.eq_null_of_startsWith (h'.startsWith h)
    subst hj
    cases h' with
    | null h' => exact ⟨rfl, List.append_cancel_left (h.unique h').2⟩
  | boolTrue h =>
    obtain ⟨j', rfl⟩ := JsonPhrase.exists_value hkind
    have hj := Json.eq_true_of_startsWith (h'.startsWith h)
    subst hj
    cases h' with
    | boolTrue h' => exact ⟨rfl, List.append_cancel_left (h.unique h').2⟩
  | boolFalse h =>
    obtain ⟨j', rfl⟩ := JsonPhrase.exists_value hkind
    have hj := Json.eq_false_of_startsWith (h'.startsWith h)
    subst hj
    cases h' with
    | boolFalse h' => exact ⟨rfl, List.append_cancel_left (h.unique h').2⟩
  | number ht h =>
    obtain ⟨j', rfl⟩ := JsonPhrase.exists_value hkind
    obtain ⟨c, w, rfl, hc⟩ := h.head
    obtain ⟨v', rfl⟩ := Json.eq_number_of_startsWith hc (h'.startsWith ht)
    cases h' with
    | number ht' h' =>
      have hu := Garbage.unique ht ht'
      subst hu
      obtain ⟨rfl, rfl⟩ := h.unique h'
      exact ⟨rfl, rfl⟩
  | string ht h =>
    obtain ⟨j', rfl⟩ := JsonPhrase.exists_value hkind
    obtain ⟨s', rfl⟩ := Json.eq_string_of_startsWith (h'.startsWith ht)
    cases h' with
    | string ht' h' =>
      obtain ⟨-, rfl⟩ := ht.unique ht'
      obtain ⟨rfl, rfl⟩ := h.unique h'
      exact ⟨rfl, rfl⟩
  | noItems ht h =>
    obtain ⟨j', rfl⟩ := JsonPhrase.exists_value hkind
    obtain ⟨js', rfl⟩ := Json.eq_array_of_startsWith (h'.startsWith ht)
    cases h' with
    | noItems ht' h' =>
      obtain ⟨-, rfl⟩ := ht.unique ht'
      exact ⟨rfl, (h.unique h').2⟩
    | array ht' h' =>
      -- no item starts with the bracket that closes the array
      obtain ⟨-, rfl⟩ := ht.unique ht'
      obtain ⟨j, hj⟩ := h'.items_startsWith h
      exact absurd hj j.not_startsWith_bracket
  | array ht h ih =>
    obtain ⟨j', rfl⟩ := JsonPhrase.exists_value hkind
    obtain ⟨js', rfl⟩ := Json.eq_array_of_startsWith (h'.startsWith ht)
    cases h' with
    | noItems ht' h' =>
      obtain ⟨-, rfl⟩ := ht.unique ht'
      obtain ⟨j, hj⟩ := h.items_startsWith h'
      exact absurd hj j.not_startsWith_bracket
    | array ht' h' =>
      obtain ⟨-, rfl⟩ := ht.unique ht'
      obtain ⟨heq, rfl⟩ := ih h' rfl
      cases heq
      exact ⟨rfl, rfl⟩
  | noMembers ht h =>
    obtain ⟨j', rfl⟩ := JsonPhrase.exists_value hkind
    obtain ⟨ms', rfl⟩ := Json.eq_object_of_startsWith (h'.startsWith ht)
    cases h' with
    | noMembers ht' h' =>
      obtain ⟨-, rfl⟩ := ht.unique ht'
      exact ⟨rfl, (h.unique h').2⟩
    | object ht' h' =>
      obtain ⟨-, rfl⟩ := ht.unique ht'
      exact absurd (h'.members_startsWith h) (by decide)
  | object ht h ih =>
    obtain ⟨j', rfl⟩ := JsonPhrase.exists_value hkind
    obtain ⟨ms', hms⟩ := Json.eq_object_of_startsWith (h'.startsWith ht)
    cases h' with
    | noMembers ht' h' =>
      obtain ⟨-, rfl⟩ := ht.unique ht'
      exact absurd (h.members_startsWith h') (by decide)
    | object ht' h' =>
      obtain ⟨-, rfl⟩ := ht.unique ht'
      obtain ⟨heq, rfl⟩ := ih h' rfl
      cases heq
      exact ⟨rfl, rfl⟩
    | _ => cases hms
  | lastItem h hu ih =>
    obtain ⟨js', rfl⟩ := JsonPhrase.exists_items hkind
    cases h' with
    | lastItem h' hu' =>
      obtain ⟨heq, rfl⟩ := ih h' rfl
      cases heq
      exact ⟨rfl, (hu.unique hu').2⟩
    | item h' hu' =>
      -- behind the same item, one text has a bracket and the other a comma
      obtain ⟨-, rfl⟩ := ih h' rfl
      exact hu.elim (by decide) hu'
  | item h hu hw ih ih' =>
    obtain ⟨js', rfl⟩ := JsonPhrase.exists_items hkind
    cases h' with
    | lastItem h' hu' =>
      obtain ⟨-, rfl⟩ := ih h' rfl
      exact hu.elim (by decide) hu'
    | item h' hu' hw' =>
      obtain ⟨heq, rfl⟩ := ih h' rfl
      obtain ⟨-, rfl⟩ := hu.unique hu'
      obtain ⟨heq', rfl⟩ := ih' hw' rfl
      cases heq
      cases heq'
      exact ⟨rfl, rfl⟩
  | lastMember ht hkey hv h hx ih =>
    obtain ⟨ms', rfl⟩ := JsonPhrase.exists_members hkind
    cases h' with
    | lastMember ht' hkey' hv' h' hx' =>
      obtain ⟨-, rfl⟩ := ht.unique ht'
      obtain ⟨rfl, rfl⟩ := hkey.unique hkey'
      obtain ⟨-, rfl⟩ := hv.unique hv'
      obtain ⟨heq, rfl⟩ := ih h' rfl
      cases heq
      exact ⟨rfl, (hx.unique hx').2⟩
    | member ht' hkey' hv' h' hx' =>
      obtain ⟨-, rfl⟩ := ht.unique ht'
      obtain ⟨-, rfl⟩ := hkey.unique hkey'
      obtain ⟨-, rfl⟩ := hv.unique hv'
      obtain ⟨-, rfl⟩ := ih h' rfl
      exact hx.elim (by decide) hx'
  | member ht hkey hv h hx hy ih ih' =>
    obtain ⟨ms', rfl⟩ := JsonPhrase.exists_members hkind
    cases h' with
    | lastMember ht' hkey' hv' h' hx' =>
      obtain ⟨-, rfl⟩ := ht.unique ht'
      obtain ⟨-, rfl⟩ := hkey.unique hkey'
      obtain ⟨-, rfl⟩ := hv.unique hv'
      obtain ⟨-, rfl⟩ := ih h' rfl
      exact hx.elim (by decide) hx'
    | member ht' hkey' hv' h' hx' hy' =>
      obtain ⟨-, rfl⟩ := ht.unique ht'
      obtain ⟨rfl, rfl⟩ := hkey.unique hkey'
      obtain ⟨-, rfl⟩ := hv.unique hv'
      obtain ⟨heq, rfl⟩ := ih h' rfl
      obtain ⟨-, rfl⟩ := hx.unique hx'
      obtain ⟨heq', rfl⟩ := ih' hy' rfl
      cases heq
      cases heq'
      exact ⟨rfl, rfl⟩

/-! ### Comments -/

theorem Garbage.comments (h : Garbage .STANDARD t u) (hu : u.headD 0 ≠ 47) :
    Garbage .COMMENTS t u := by
  induction h with
  | stop hblank => exact .stop hblank fun _ => hu
  | blank hc _ ih => exact .blank hc (ih hu)
  | inline hs => cases hs
  | multiline hs => cases hs

/-- A text without comments reads the same where comments are allowed. -/
theorem Derives.comments (h : Derives .STANDARD strtod n t p r) :
    Derives .COMMENTS strtod n t p r := by
  have token : ∀ {t u : Str} {c : Byte}, c ≠ 47 → Token .STANDARD t c u → Token .COMMENTS t c u :=
    fun hc h => Garbage.comments h hc
  induction h with
  | null h => exact .null (token (by decide) h)
  | boolTrue h => exact .boolTrue (token (by decide) h)
  | boolFalse h => exact .boolFalse (token (by decide) h)
  | number ht h =>
    obtain ⟨c, w, rfl, hc⟩ := h.head
    have hslash : ∀ c : Byte, c = 45 ∨ isDigit c = true → c ≠ 47 := by decide
    exact .number (ht.comments (hslash c hc)) h
  | string ht h => exact .string (token (by decide) ht) h
  | noItems ht h => exact .noItems (token (by decide) ht) (token (by decide) h)
  | array ht _ ih => exact .array (token (by decide) ht) ih
  | noMembers ht h => exact .noMembers (token (by decide) ht) (token (by decide) h)
  | object ht _ ih => exact .object (token (by decide) ht) ih
  | lastItem _ hu ih => exact .lastItem ih (token (by decide) hu)
  | item _ hu _ ih ih' => exact .item ih (token (by decide) hu) ih'
  | lastMember ht hkey hv _ hx ih =>
    exact .lastMember (token (by decide) ht) hkey (token (by decide) hv) ih (token (by decide) hx)
  | member ht hkey hv _ hx _ ih ih' =>
    exact .member (token (by decide) ht) hkey (token (by decide) hv) ih (token (by decide) hx) ih'

/-! ### Ordered maps -/

instance : @Trans Byte Byte Byte (· < ·) (· < ·) (· < ·) := ⟨fun h h' => BitVec.lt_trans h h'⟩

instance : @Std.Irrefl Byte (· < ·) := ⟨fun c => BitVec.lt_irrefl c⟩

theorem str_lt_trichotomy (s s' : Str) : s < s' ∨ s = s' ∨ s' < s := by
  induction s generalizing s' with
  | nil =>
    cases s' with
    | nil => exact Or.inr (Or.inl rfl)
    | cons c' s' => exact Or.inl (List.nil_lt_cons c' s')
  | cons c s ih =>
    cases s' with
    | nil => exact Or.inr (Or.inr (List.nil_lt_cons c s))
    | cons c' s' =>
      rw [List.cons_lt_cons_iff, List.cons_lt_cons_iff]
      rcases BitVec.lt_trichotomy c c' with h | rfl | h
      · exact Or.inl (Or.inl h)
      · rcases ih s' with h | rfl | h
        · exact Or.inl (Or.inr ⟨rfl, h⟩)
        · exact Or.inr (Or.inl rfl)
        · exact Or.inr (Or.inr (Or.inr ⟨rfl, h⟩))
      · exact Or.inr (Or.inr (Or.inl h))

/-- The keys are in order, so that no key comes twice. -/
def Increasing (ms : List (Str × Json)) : Prop := ms.Pairwise fun m m' => m.1 < m'.1

theorem mem_mapInsert {key : Str} {v : Json} {data : List (Str × Json)} {x : Str × Json}
    (h : x ∈ mapInsert key v data) : x = (key, v) ∨ x ∈ data := by
  induction data with
  | nil => exact Or.inl (List.mem_singleton.mp h)
  | cons d data ih =>
    obtain ⟨k, w⟩ := d
    rw [mapInsert] at h
    split at h
    · next hkey =>
      rcases List.mem_cons.mp h with rfl | h
      · exact Or.inl rfl
      · exact Or.inr (List.mem_cons_of_mem _ h)
    · split at h
      · rcases List.mem_cons.mp h with rfl | h
        · exact Or.inl rfl
        · exact Or.inr h
      · rcases List.mem_cons.mp h with rfl | h
        · exact Or.inr (List.mem_cons_self ..)
        · exact (ih h).imp_right (List.mem_cons_of_mem _)

/-- An insertion keeps the order. -/
theorem Increasing.mapInsert {key : Str} {v : Json} {data : List (Str × Json)}
    (h : Increasing data) : Increasing (mapInsert key v data) := by
  induction data with
  | nil => exact List.pairwise_singleton ..
  | cons d data ih =>
    obtain ⟨k, w⟩ := d
    obtain ⟨hfirst, hrest⟩ := List.pairwise_cons.mp h
    rw [KeystoneSdk.mapInsert]
    split
    · next hkey =>
      subst hkey
      exact List.pairwise_cons.mpr ⟨hfirst, hrest⟩
    · next hne =>
      split
      · next hlt =>
        refine List.pairwise_cons.mpr ⟨fun x hx => ?_, h⟩
        rcases List.mem_cons.mp hx with rfl | hx
        · exact hlt
        · exact List.lt_trans hlt (hfirst x hx)
      · next hnlt =>
        have hgt : k < key := by
          rcases str_lt_trichotomy key k with hlt | heq | hgt
          · exact absurd hlt hnlt
          · exact absurd heq hne
          · exact hgt
        refine List.pairwise_cons.mpr ⟨fun x hx => ?_, ih hrest⟩
        rcases mem_mapInsert hx with rfl | hx
        · exact hgt
        · exact hfirst x hx

/-- Behind keys that are all smaller, an insertion goes to the end. -/
theorem mapInsert_last {key : Str} {v : Json} {data : List (Str × Json)}
    (h : ∀ m ∈ data, m.1 < key) : mapInsert key v data = data ++ [(key, v)] := by
  induction data with
  | nil => rfl
  | cons d data ih =>
    obtain ⟨k, w⟩ := d
    have hk : k < key := h (k, w) (List.mem_cons_self ..)
    have hne : key ≠ k := by
      rintro rfl
      exact List.lt_irrefl key hk
    have hnlt : ¬ key < k := fun hlt => List.lt_irrefl key (List.lt_trans hlt hk)
    rw [mapInsert, if_neg hne, if_neg hnlt, ih fun m hm => h m (List.mem_cons_of_mem _ hm)]
    rfl

/-- Members whose keys are in order are the map they make. -/
theorem ofMembers_increasing (h : Increasing ms) : ofMembers ms = ms := by
  have hstep : ∀ data : List (Str × Json), Increasing (data ++ ms) →
      ms.foldl (fun data m => mapInsert m.1 m.2 data) data = data ++ ms := by
    clear h
    induction ms with
    | nil => intro data _; exact (List.append_nil data).symm
    | cons x ms ih =>
      intro data hdata
      have hlast : mapInsert x.1 x.2 data = data ++ [x] :=
        mapInsert_last fun m hm => (List.pairwise_append.mp hdata).2.2 m hm x (List.mem_cons_self ..)
      rw [List.foldl_cons, hlast, ih]
      · exact List.append_assoc ..
      · rwa [List.append_assoc]
  exact hstep [] h

namespace Json

mutual

/-- `p` holds of a value and of all the values in it. -/
def Every (p : Json → Prop) : Json → Prop
  | .array js => p (.array js) ∧ EveryItem p js
  | .object ms => p (.object ms) ∧ EveryMember p ms
  | .null => p .null
  | .number n => p (.number n)
  | .bool b => p (.bool b)
  | .string s => p (.string s)

def EveryItem (p : Json → Prop) : List Json → Prop
  | [] => True
  | j :: js => j.Every p ∧ EveryItem p js

def EveryMember (p : Json → Prop) : List (Str × Json) → Prop
  | [] => True
  | (_, j) :: ms => j.Every p ∧ EveryMember p ms

end

/-- The keys of an object are in order. -/
def IsMap : Json → Prop
  | .object ms => Increasing ms
  | _ => True

/-- Every object is a map: its keys are in order. -/
def Ordered (j : Json) : Prop := j.Every IsMap

mutual

/-- How many arrays and objects the deepest value is in. -/
def depth : Json → ℕ
  | .array js => itemsDepth js
  | .object ms => membersDepth ms
  | _ => 0

def itemsDepth : List Json → ℕ
  | [] => 0
  | j :: js => max (j.depth + 1) (itemsDepth js)

def membersDepth : List (Str × Json) → ℕ
  | [] => 0
  | (_, j) :: ms => max (j.depth + 1) (membersDepth ms)

end

theorem everyItem_iff {p : Json → Prop} : EveryItem p js ↔ ∀ j ∈ js, j.Every p := by
  induction js with
  | nil => simp [EveryItem]
  | cons j js ih => simp [EveryItem, ih]

theorem everyMember_iff {p : Json → Prop} : EveryMember p ms ↔ ∀ m ∈ ms, m.2.Every p := by
  induction ms with
  | nil => simp [EveryMember]
  | cons x ms ih => simp [EveryMember, ih]

theorem itemsDepth_le : itemsDepth js ≤ n ↔ ∀ j ∈ js, j.depth < n := by
  induction js with
  | nil => simp [itemsDepth]
  | cons j js ih => simp [itemsDepth, ih]

theorem membersDepth_le : membersDepth ms ≤ n ↔ ∀ m ∈ ms, m.2.depth < n := by
  induction ms with
  | nil => simp [membersDepth]
  | cons x ms ih => simp [membersDepth, ih]

end Json

/-- What a property of all members says of the map they make. -/
theorem forall_mem_ofMembers {p : Json → Prop} (h : ∀ x ∈ ms, p x.2) : ∀ x ∈ ofMembers ms, p x.2 := by
  have hstep : ∀ data : List (Str × Json), (∀ x ∈ data, p x.2) →
      ∀ x ∈ ms.foldl (fun data m => mapInsert m.1 m.2 data) data, p x.2 := by
    induction ms with
    | nil => exact fun data hdata => hdata
    | cons x ms ih =>
      intro data hdata
      refine ih (fun y hy => h y (List.mem_cons_of_mem _ hy)) _ fun y hy => ?_
      rcases mem_mapInsert hy with rfl | hy
      · exact h x (List.mem_cons_self ..)
      · exact hdata y hy
  exact hstep [] fun x hx => absurd hx List.not_mem_nil

theorem increasing_ofMembers (ms : List (Str × Json)) : Increasing (ofMembers ms) := by
  have hstep : ∀ data : List (Str × Json), Increasing data →
      Increasing (ms.foldl (fun data m => mapInsert m.1 m.2 data) data) := by
    induction ms with
    | nil => exact fun data hdata => hdata
    | cons x ms ih => exact fun data hdata => ih _ hdata.mapInsert
  exact hstep [] List.Pairwise.nil

/-- What holds of the values of a phrase. -/
def JsonPhrase.All (p : Json → Prop) : JsonPhrase → Prop
  | value j => p j
  | items js => ∀ j ∈ js, p j
  | members ms => ∀ m ∈ ms, p m.2

/-- The objects of a text are maps. -/
theorem Derives.ordered (h : Derives strategy strtod n t p r) : p.All Json.Ordered := by
  induction h with
  | array _ _ ih => exact ⟨trivial, Json.everyItem_iff.mpr ih⟩
  | object _ _ ih =>
    exact ⟨increasing_ofMembers _, Json.everyMember_iff.mpr (forall_mem_ofMembers ih)⟩
  | lastItem _ _ ih => exact List.forall_mem_singleton.mpr ih
  | item _ _ _ ih ih' => exact List.forall_mem_cons.mpr ⟨ih, ih'⟩
  | lastMember _ _ _ _ _ ih => exact List.forall_mem_singleton.mpr ih
  | member _ _ _ _ _ _ ih ih' => exact List.forall_mem_cons.mpr ⟨ih, ih'⟩
  | noMembers => exact ⟨List.Pairwise.nil, trivial⟩
  | noItems => exact ⟨trivial, trivial⟩
  | _ => trivial

/-- The values of a text are no deeper than the levels allow. -/
theorem Derives.depth_le (h : Derives strategy strtod n t p r) : p.All fun j => j.depth ≤ n := by
  induction h with
  | array _ _ ih => exact Json.itemsDepth_le.mpr fun j hj => Nat.lt_succ_of_le (ih j hj)
  | object _ _ ih =>
    exact Json.membersDepth_le.mpr fun m hm => Nat.lt_succ_of_le
      (forall_mem_ofMembers (p := fun j => j.depth ≤ _) ih m hm)
  | lastItem _ _ ih => exact List.forall_mem_singleton.mpr ih
  | item _ _ _ ih ih' => exact List.forall_mem_cons.mpr ⟨ih, ih'⟩
  | lastMember _ _ _ _ _ ih => exact List.forall_mem_singleton.mpr ih
  | member _ _ _ _ _ _ ih ih' => exact List.forall_mem_cons.mpr ⟨ih, ih'⟩
  | _ => exact Nat.zero_le _

end KeystoneSdk
