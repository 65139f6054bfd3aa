/-
What `Json::dump` writes, `Json::parse` reads.

* `stringText_dump`, `numberText_decimal`, `derives_dump` — what is written is a
  text of the grammar;
* **`parse_dump_iff`** — a written value is read back if it is nested at most
  `max_depth` deep, and is an error if it is deeper;
* `json11`, **`report_round_trip`** — so `Report::fromJson` reads what
  `Report::stringfy` wrote.
-/
import KeystoneSdk.JsonParsing

open ByteMemory StopM

namespace KeystoneSdk

variable {strategy : JsonParse} {strtod : Str → BitVec 32} {n : ℕ} {t u r : Str} {c : Byte}

/-! ### Strings -/

/-- An escape that is no lead surrogate stands for its own character. -/
theorem decode_code {pt : ℕ} (h : pt < 0xD800) (us : List JsonUnit) :
    decode (.code pt :: us) = utf8 pt ++ decode us := by
  cases us with
  | nil => rfl
  | cons v us =>
    cases v with
    | byte c => rfl
    | code trail =>
      have hnot : ¬ JsonInput.surrogates pt trail = true := by
        unfold JsonInput.surrogates
        simp only [Bool.and_eq_true, decide_eq_true_eq]
        omega
      rw [decode, if_neg hnot]

theorem leadingHex_control : ∀ c : Byte, c ≤ 0x1f → leadingHex (str "00" ++ hexPair c) = c.toNat := by
  decide

theorem isHexDigit_control : ∀ c : Byte, c ≤ 0x1f →
    ∀ d ∈ str "00" ++ hexPair c, isHexDigit d = true := by decide

/-- The escape of a character is one unit, which stands for it. -/
theorem escape_spells (c : Byte) :
    ∃ v, Spells (Json.escape c) v ∧ ∀ us, decode (v :: us) = c :: decode us := by
  have short : ∀ d e : Byte, JsonInput.unescape d = some e → ∃ v, Spells [92, d] v ∧
      ∀ us, decode (v :: us) = e :: decode us :=
    fun d e h => ⟨.byte e, .escape h, fun _ => rfl⟩
  unfold Json.escape
  -- seven characters have an escape of their own
  by_cases h92 : c = 92
  · subst h92
    exact short 92 92 (by decide)
  rw [if_neg h92]
  by_cases h34 : c = 34
  · subst h34
    exact short 34 34 (by decide)
  rw [if_neg h34]
  by_cases h8 : c = 8
  · subst h8
    exact short 98 8 (by decide)
  rw [if_neg h8]
  by_cases h12 : c = 12
  · subst h12
    exact short 102 12 (by decide)
  rw [if_neg h12]
  by_cases h10 : c = 10
  · subst h10
    exact short 110 10 (by decide)
  rw [if_neg h10]
  by_cases h13 : c = 13
  · subst h13
    exact short 114 13 (by decide)
  rw [if_neg h13]
  by_cases h9 : c = 9
  · subst h9
    exact short 116 9 (by decide)
  rw [if_neg h9]
  by_cases hcontrol : c ≤ 0x1f
  · rw [if_pos hcontrol]
    refine ⟨.code (leadingHex (str "00" ++ hexPair c)),
      @Spells.code (str "00" ++ hexPair c) rfl (isHexDigit_control c hcontrol), fun us => ?_⟩
    have hlt : c.toNat < 0x80 := lt_of_le_of_lt (BitVec.le_def.mp hcontrol) (by decide)
    rw [leadingHex_control c hcontrol, decode_code (by omega), utf8, if_pos hlt,
      BitVec.ofNat_toNat, BitVec.setWidth_eq]
    rfl
  · rw [if_neg hcontrol]
    exact ⟨.byte c, .byte (BitVec.not_le.mp hcontrol) h34 h92, fun _ => rfl⟩

/-- A written string is a string of the grammar. -/
theorem stringText_dump (s r : Str) :
    StringText (Json.dumpString.dumpChars s ++ 34 :: r) s r := by
  have separator : ∀ (w s : Str) (c : Byte) (pt : ℕ), w = 92 :: 117 :: w.drop 2 →
      (w.drop 2).length = 4 → (∀ d ∈ w.drop 2, isHexDigit d = true) →
      leadingHex (w.drop 2) = pt → pt < 0xD800 → utf8 pt = [0xe2, 0x80, c] →
      StringText (Json.dumpString.dumpChars s ++ 34 :: r) s r →
      StringText (w ++ (Json.dumpString.dumpChars s ++ 34 :: r)) (0xe2 :: 0x80 :: c :: s) r := by
    rintro w s c pt hw hlen hdigits hpt hlt hutf ⟨us, hus, hdecode⟩
    refine ⟨.code pt :: us, ?_, ?_⟩
    · rw [hw, ← hpt]
      exact .unit (.code hlen hdigits) hus
    · rw [decode_code hlt, hutf, hdecode]
      rfl
  fun_induction Json.dumpString.dumpChars s with
  | case1 s ih =>
    rw [List.append_assoc]
    exact separator _ s 0xa8 0x2028 (by decide) (by decide) (by decide) (by decide) (by decide)
      (by decide) ih
  | case2 s ih =>
    rw [List.append_assoc]
    exact separator _ s 0xa9 0x2029 (by decide) (by decide) (by decide) (by decide) (by decide)
      (by decide) ih
  | case3 c s _ _ ih =>
    obtain ⟨us, hus, hdecode⟩ := ih
    obtain ⟨v, hv, hvdecode⟩ := escape_spells c
    rw [List.append_assoc]
    exact ⟨v :: us, .unit hv hus, by rw [hvdecode, hdecode]⟩
  | case4 => exact ⟨[], .close, rfl⟩

/-! ### Numbers -/

/-- `%d` of an `int`. -/
def decimal (n : BitVec 32) : Str := str (toString n.toInt)

/-- The digits of a natural number. -/
def natDigits (m : ℕ) : Str := str (toString m)

theorem natDigits_eq (m : ℕ) :
    natDigits m = if m < 10 then [BitVec.ofNat 8 (48 + m)]
      else natDigits (m / 10) ++ [BitVec.ofNat 8 (48 + m % 10)] := by
  have hlist : ∀ k, natDigits k = (Nat.toDigits 10 k).map fun c => BitVec.ofNat 8 c.toNat := by
    intro k
    rw [natDigits, str, Nat.toString_eq_ofList_toDigits, String.toList_ofList]
  rw [hlist, hlist, Nat.toDigits_eq_if (by decide)]
  split
  · next h => rw [List.map_singleton, Nat.toNat_digitChar_of_lt_ten h]
  · rw [List.map_append, List.map_singleton,
      Nat.toNat_digitChar_of_lt_ten (Nat.mod_lt m (by decide))]

theorem isDigit_ofNat {d : ℕ} (h : d < 10) : isDigit (BitVec.ofNat 8 (48 + d)) = true := by
  interval_cases d <;> rfl

/-- The digits of a number are digits, start with a zero only for 0, and have
its value. -/
theorem natDigits_spec (m : ℕ) :
    (∀ c ∈ natDigits m, isDigit c = true) ∧ natDigits m ≠ [] ∧
      (natDigits m = [48] ∨ (natDigits m).headD 0 ≠ 48) ∧
      (natDigits m).foldl (fun n c => 10 * n + (c.toNat - 48)) 0 = m := by
  -- on the number: its digits are those of `m / 10` with one more behind them
  induction m using Nat.strong_induction_on with
  | _ m ih =>
    have hvalue : ∀ d, d < 10 → (BitVec.ofNat 8 (48 + d)).toNat - 48 = d := fun d hd => by
      rw [BitVec.toNat_ofNat, Nat.mod_eq_of_lt (by omega)]
      omega
    rw [natDigits_eq]
    by_cases hsmall : m < 10
    · rw [if_pos hsmall]
      refine ⟨fun c hc => ?_, List.cons_ne_nil _ _, ?_, ?_⟩
      · rw [List.mem_singleton.mp hc]
        exact isDigit_ofNat hsmall
      · interval_cases m
        · exact Or.inl rfl
        all_goals exact Or.inr (by decide)
      · rw [List.foldl_cons, List.foldl_nil, hvalue m hsmall]
        omega
    · obtain ⟨hdigits, hne, hhead, hfold⟩ := ih (m / 10) (by omega)
      rw [if_neg hsmall]
      refine ⟨fun c hc => ?_, List.append_ne_nil_of_left_ne_nil hne _, Or.inr ?_, ?_⟩
      · rcases List.mem_append.mp hc with hc | hc
        · exact hdigits c hc
        · rw [List.mem_singleton.mp hc]
          exact isDigit_ofNat (Nat.mod_lt m (by decide))
      · rcases hhead with hzero | hhead
        · rw [hzero] at hfold
          have : m / 10 = 0 := hfold.symm
          omega
        · obtain ⟨d, ds, hds⟩ := List.exists_cons_of_ne_nil hne
          rw [hds] at hhead ⊢
          exact hhead
      · rw [List.foldl_append, hfold, List.foldl_cons, List.foldl_nil,
          hvalue _ (Nat.mod_lt m (by decide))]
        omega

/-- The digits of an `int`, behind a sign if it is negative. -/
theorem decimal_eq (n : BitVec 32) :
    decimal n = (if n.toInt < 0 then [45] else []) ++ natDigits n.toInt.natAbs := by
  have happend : ∀ a b : String, str (a ++ b) = str a ++ str b := fun a b => by
    rw [str, String.toList_append, List.map_append]
    rfl
  rw [decimal, Int.toString_eq_repr, Int.repr_eq_if]
  by_cases hneg : n.toInt < 0
  · have habs : (-n.toInt).toNat = n.toInt.natAbs := by omega
    rw [if_pos hneg, if_neg (by omega), happend, habs]
    rfl
  · have habs : n.toInt.toNat = n.toInt.natAbs := by omega
    rw [if_neg hneg, if_pos (by omega), habs]
    rfl

/-- What stops a number. -/
def EndsNumber (r : Str) : Prop :=
  isDigit (r.headD 0) = false ∧ r.headD 0 ≠ 46 ∧ r.headD 0 ≠ 101 ∧ r.headD 0 ≠ 69

/-- The digits in front of another character. -/
theorem leadingDecimal_natDigits (m : ℕ) (hr : isDigit (r.headD 0) = false) :
    leadingDecimal (natDigits m ++ r) = m := by
  obtain ⟨hdigits, -, -, hfold⟩ := natDigits_spec m
  have hsome : ∀ c : Byte, (decimalValue c).isSome = isDigit c := by decide
  have hvalue : ∀ c : Byte, isDigit c = true → (decimalValue c).getD 0 = c.toNat - 48 := by decide
  have htake : (natDigits m ++ r).takeWhile (Option.isSome ∘ decimalValue) = natDigits m := by
    have hpred : Option.isSome ∘ decimalValue = isDigit := funext hsome
    have hnil : r.takeWhile isDigit = [] := by
      cases r with
      | nil => rfl
      | cons c r => exact List.takeWhile_cons_of_neg (Bool.eq_false_iff.mp hr)
    rw [hpred, List.takeWhile_append_of_pos hdigits, hnil, List.append_nil]
  rw [leadingDecimal, List.takeWhile_map, htake, List.foldl_map]
  refine (List.foldl_ext _ _ _ fun n c hc => ?_).trans hfold
  rw [hvalue c (hdigits c hc)]

/-- `atoi` reads what `%d` wrote. -/
theorem atoi_decimal (n : BitVec 32) (hr : isDigit (r.headD 0) = false) :
    atoi (decimal n ++ r) = n := by
  have hlead := leadingDecimal_natDigits n.toInt.natAbs hr
  obtain ⟨hdigits, hne, -, -⟩ := natDigits_spec n.toInt.natAbs
  obtain ⟨d, ds, hds⟩ := List.exists_cons_of_ne_nil hne
  have hd : isDigit d = true := hdigits d (hds ▸ List.mem_cons_self ..)
  have hspace : ∀ d : Byte, isDigit d = true → isSpace d = false ∧ d ≠ 45 ∧ d ≠ 43 := by decide
  -- an `int` is not cut
  have hcut : max (-2 ^ 63) (min n.toInt (2 ^ 63 - 1)) = n.toInt := by
    have hlow := BitVec.le_toInt n
    have hhigh := BitVec.toInt_lt (x := n)
    norm_num at hlow hhigh ⊢
    omega
  rw [decimal_eq]
  by_cases hneg : n.toInt < 0
  · have habs : -((n.toInt.natAbs : ℕ) : ℤ) = n.toInt := by omega
    have hdrop : ([45] ++ natDigits n.toInt.natAbs ++ r : Str).dropWhile isSpace =
        45 :: (natDigits n.toInt.natAbs ++ r) := rfl
    rw [if_pos hneg, atoi, hdrop]
    show BitVec.ofInt 32 (max (-2 ^ 63) (min (-(leadingDecimal (natDigits _ ++ r) : ℤ)) _)) = n
    rw [hlead, habs, hcut, BitVec.ofInt_toInt]
  · have habs : ((n.toInt.natAbs : ℕ) : ℤ) = n.toInt := by omega
    obtain ⟨hblank, hminus, hplus⟩ := hspace d hd
    have hdrop : (natDigits n.toInt.natAbs ++ r).dropWhile isSpace =
        natDigits n.toInt.natAbs ++ r := by
      rw [hds]
      exact List.dropWhile_cons_of_neg (Bool.eq_false_iff.mp hblank)
    rw [if_neg hneg, List.nil_append, atoi, hdrop]
    rw [hds] at hlead ⊢
    split
    · next h => exact absurd (List.cons.inj h).1 hminus
    · next h => exact absurd (List.cons.inj h).1 hplus
    · simp only [hlead, habs, hcut, BitVec.ofInt_toInt]

/-- `n` is short enough for `atoi`, or `strtod` reads it. -/
def IntRead (strtod : Str → BitVec 32) (n : BitVec 32) : Prop :=
  (decimal n).length ≤ intDigits10 ∨ ∀ r, EndsNumber r → strtod (decimal n ++ r) = n

/-- A written number is a number of the grammar. -/
theorem numberText_decimal {n : BitVec 32} (hn : IntRead strtod n) (hr : EndsNumber r) :
    NumberText strtod (decimal n ++ r) n r := by
  obtain ⟨hdigits, hne, hhead, -⟩ := natDigits_spec n.toInt.natAbs
  refine ⟨if n.toInt < 0 then [45] else [], natDigits n.toInt.natAbs, [], [], ?_, ?_, ?_,
    Or.inl rfl, Or.inl rfl, hr.1, fun _ => hr.2.2, fun _ _ => hr.2.1, ?_⟩
  · rw [List.append_nil, List.append_nil, ← decimal_eq]
  · split
    · exact Or.inr rfl
    · exact Or.inl rfl
  · exact hhead.imp_right fun h => ⟨hne, h, hdigits⟩
  · rw [← decimal_eq]
    by_cases hlen : (decimal n).length ≤ intDigits10
    · rw [if_pos ⟨rfl, rfl, hlen⟩, atoi_decimal n hr.1]
    · rw [if_neg fun h => hlen h.2.2, (hn.resolve_left hlen) r hr]

/-! ### Values -/

/-- The numbers of a value are read back. -/
def IntsRead (strtod : Str → BitVec 32) : Json → Prop
  | .number n => IntRead strtod n
  | _ => True

/-- A character that is no garbage is a token. -/
theorem token_self (hblank : isBlank c = false) (hslash : c ≠ 47) : Token strategy (c :: t) c t :=
  .stop hblank fun _ => hslash

/-- A number stops in front of punctuation. -/
theorem endsNumber_cons (h : isDigit c = false ∧ c ≠ 46 ∧ c ≠ 101 ∧ c ≠ 69) :
    EndsNumber (c :: t) := h

mutual

/-- A written value is a text of the grammar. -/
theorem derives_dump : (j : Json) → (n : ℕ) → (r : Str) → j.Ordered → j.Every (IntsRead strtod) →
    j.depth ≤ n → EndsNumber r → Derives strategy strtod n (j.dump ++ r) (.value j) r
  | .null, n, r, _, _, _, _ => .null (token_self (by decide) (by decide))
  | .bool true, n, r, _, _, _, _ => .boolTrue (token_self (by decide) (by decide))
  | .bool false, n, r, _, _, _, _ => .boolFalse (token_self (by decide) (by decide))
  | .number v, n, r, _, hint, _, hr => by
    have hnumber := numberText_decimal hint hr
    obtain ⟨c, w, hw, hc⟩ := hnumber.head
    have hstop : ∀ c : Byte, c = 45 ∨ isDigit c = true → isBlank c = false ∧ c ≠ 47 := by decide
    have hdump : Json.dump (.number v) ++ r = decimal v ++ r := rfl
    rw [hdump]
    refine .number ?_ hnumber
    rw [hw]
    exact .stop (hstop c hc).1 fun _ => (hstop c hc).2
  | .string s, n, r, _, _, _, _ => by
    have hdump : Json.dump (.string s) ++ r = 34 :: (Json.dumpString.dumpChars s ++ 34 :: r) := by
      rw [Json.dump, Json.dumpString, List.append_assoc, List.append_assoc]
      rfl
    rw [hdump]
    exact .string (token_self (by decide) (by decide)) (stringText_dump s r)
  | .array [], n, r, _, _, _, _ =>
    .noItems (token_self (by decide) (by decide)) (token_self (by decide) (by decide))
  | .array (j :: js), n, r, hord, hint, hdepth, _ => by
    have hdump : Json.dump (.array (j :: js)) ++ r = 91 :: (Json.dumpItems (j :: js) ++ 93 :: r) := by
      rw [Json.dump, List.append_assoc, List.append_assoc]
      rfl
    have hpos : 1 ≤ n := le_trans (le_trans (Nat.le_add_left _ _) (le_max_left _ _)) hdepth
    obtain ⟨n, rfl⟩ : ∃ k, n = k + 1 := ⟨n - 1, by omega⟩
    rw [hdump]
    exact .array (token_self (by decide) (by decide))
      (derives_dumpItems (j :: js) n r (List.cons_ne_nil j js) hord.2 hint.2 hdepth)
  | .object [], n, r, _, _, _, _ =>
    .noMembers (token_self (by decide) (by decide)) (token_self (by decide) (by decide))
  | .object (m :: ms), n, r, hord, hint, hdepth, _ => by
    obtain ⟨key, j⟩ := m
    have hdump : Json.dump (.object ((key, j) :: ms)) ++ r =
        123 :: (Json.dumpMembers ((key, j) :: ms) ++ 125 :: r) := by
      rw [Json.dump, List.append_assoc, List.append_assoc]
      rfl
    have hpos : 1 ≤ n := le_trans (le_trans (Nat.le_add_left _ _) (le_max_left _ _)) hdepth
    obtain ⟨n, rfl⟩ : ∃ k, n = k + 1 := ⟨n - 1, by omega⟩
    have hopen : Token strategy (123 :: (Json.dumpMembers ((key, j) :: ms) ++ 125 :: r)) 123
        (Json.dumpMembers ((key, j) :: ms) ++ 125 :: r) := token_self (by decide) (by decide)
    have hobject := Derives.object hopen
      (derives_dumpMembers ((key, j) :: ms) n r (List.cons_ne_nil _ ms) hord.2 hint.2 hdepth)
    rwa [ofMembers_increasing hord.1, ← hdump] at hobject

theorem derives_dumpItems : (js : List Json) → (n : ℕ) → (r : Str) → js ≠ [] →
    Json.EveryItem Json.IsMap js → Json.EveryItem (IntsRead strtod) js →
    Json.itemsDepth js ≤ n + 1 →
    Derives strategy strtod n (Json.dumpItems js ++ 93 :: r) (.items js) r
  | [], _, _, hne, _, _, _ => absurd rfl hne
  | [j], n, r, _, hord, hint, hdepth => by
    have hj : j.depth + 1 ≤ n + 1 := (le_max_left _ _).trans hdepth
    exact .lastItem (derives_dump j n (93 :: r) hord.1 hint.1 (by omega)
      (endsNumber_cons (by decide))) (token_self (by decide) (by decide))
  | j :: j' :: js, n, r, _, hord, hint, hdepth => by
    have hj : j.depth + 1 ≤ n + 1 := (le_max_left _ _).trans hdepth
    have hrest : Json.itemsDepth (j' :: js) ≤ n + 1 := (le_max_right _ _).trans hdepth
    have hdump : Json.dumpItems (j :: j' :: js) ++ 93 :: r =
        j.dump ++ 44 :: 32 :: (Json.dumpItems (j' :: js) ++ 93 :: r) := by
      rw [Json.dumpItems, List.append_assoc, List.append_assoc]
      · rfl
      · exact List.cons_ne_nil j' js
    rw [hdump]
    refine .item (derives_dump j n _ hord.1 hint.1 (by omega) (endsNumber_cons (by decide)))
      (token_self (by decide) (by decide)) (.blank (by decide) ?_)
    exact derives_dumpItems (j' :: js) n r (List.cons_ne_nil j' js) hord.2 hint.2 hrest

theorem derives_dumpMembers : (ms : List (Str × Json)) → (n : ℕ) → (r : Str) → ms ≠ [] →
    Json.EveryMember Json.IsMap ms → Json.EveryMember (IntsRead strtod) ms →
    Json.membersDepth ms ≤ n + 1 →
    Derives strategy strtod n (Json.dumpMembers ms ++ 125 :: r) (.members ms) r
  | [], _, _, hne, _, _, _ => absurd rfl hne
  | [(key, j)], n, r, _, hord, hint, hdepth => by
    have hj : j.depth + 1 ≤ n + 1 := (le_max_left _ _).trans hdepth
    have hdump : Json.dumpMembers [(key, j)] ++ 125 :: r =
        34 :: (Json.dumpString.dumpChars key ++ 34 :: 58 :: 32 :: (j.dump ++ 125 :: r)) := by
      rw [Json.dumpMembers, Json.dumpString]
      simp only [List.append_assoc]
      rfl
    rw [hdump]
    exact .lastMember (token_self (by decide) (by decide)) (stringText_dump key _)
      (token_self (by decide) (by decide))
      (.blank (by decide) (derives_dump j n (125 :: r) hord.1 hint.1 (by omega)
        (endsNumber_cons (by decide)))) (token_self (by decide) (by decide))
  | (key, j) :: m :: ms, n, r, _, hord, hint, hdepth => by
    have hj : j.depth + 1 ≤ n + 1 := (le_max_left _ _).trans hdepth
    have hrest : Json.membersDepth (m :: ms) ≤ n + 1 := (le_max_right _ _).trans hdepth
    have hdump : Json.dumpMembers ((key, j) :: m :: ms) ++ 125 :: r =
        34 :: (Json.dumpString.dumpChars key ++ 34 :: 58 :: 32 ::
          (j.dump ++ 44 :: 32 :: (Json.dumpMembers (m :: ms) ++ 125 :: r))) := by
      rw [Json.dumpMembers, Json.dumpString]
      · simp only [List.append_assoc]
        rfl
      · exact List.cons_ne_nil m ms
    rw [hdump]
    refine .member (token_self (by decide) (by decide)) (stringText_dump key _)
      (token_self (by decide) (by decide))
      (.blank (by decide) (derives_dump j n _ hord.1 hint.1 (by omega)
        (endsNumber_cons (by decide)))) (token_self (by decide) (by decide)) (.blank (by decide) ?_)
    exact derives_dumpMembers (m :: ms) n r (List.cons_ne_nil m ms) hord.2 hint.2 hrest

end

/-- A written value, and nothing behind it, is a text of the grammar. -/
theorem textOf_dump {P : JsonInput} {j : Json} (htext : P.text = j.dump) (hord : j.Ordered)
    (hint : j.Every (IntsRead P.strtod)) (hdepth : j.depth ≤ n) : TextOf P n j := by
  have hderives : Derives P.strategy P.strtod n (j.dump ++ []) (.value j) [] :=
    derives_dump j n [] hord hint hdepth ⟨rfl, by decide, by decide, by decide⟩
  rw [List.append_nil, ← htext] at hderives
  exact ⟨[], hderives, .stop rfl fun _ => by decide⟩

/-- What `dump` wrote is read back if it is nested at most `max_depth` deep;
deeper, it is an error. -/
theorem parse_dump_iff (P : JsonInput) (err : Str) (j : Json) (htext : P.text = j.dump)
    (hord : j.Ordered) (hint : j.Every (IntsRead P.strtod)) :
    (j.depth ≤ maxDepth → Json.parse P err = (.ok j, ⟨P.text.length, err, false⟩)) ∧
      (maxDepth < j.depth →
        ∃ s', Json.parse P err = (.ok .null, s') ∧ s'.failed = true ∧ s'.err ≠ []) := by
  constructor
  · exact fun hdepth => JsonInput.exec_parse (textOf_dump htext hord hint hdepth) err
  · intro hdeep
    obtain ⟨j', s', hexec, ⟨rfl, hfail⟩ | ⟨⟨r, hj', -⟩, -⟩⟩ := JsonInput.returns_parse P err
    · exact ⟨s', hexec, hfail.failed, hfail.message rfl⟩
    · -- the text has one reading, and it is too deep
      obtain ⟨r', hj, -⟩ := textOf_dump htext hord hint le_rfl
      obtain ⟨heq, -⟩ := hj.unique hj' rfl
      cases heq
      exact absurd hj'.depth_le (Nat.not_le.mpr hdeep)

theorem increasing_iff_keys {ms : List (Str × Json)} :
    Increasing ms ↔ (ms.map Prod.fst).Pairwise (· < ·) := List.pairwise_map.symm

/-- An object with a list, text with a quote, a line feed and a separator, and
numbers. -/
def smallJson : Json :=
  .object [(str "a", .array [.number 5, .null, .number (-3), .array []]),
    (str "b", .string [34, 10, 0xe2, 0x80, 0xa8, 0xff]), (str "c", .bool true)]

theorem parse_dump_small :
    Json.parse ⟨smallJson.dump, .STANDARD, atoi⟩ [] =
      (.ok smallJson, ⟨smallJson.dump.length, [], false⟩) := by
  have hshort : ∀ n : BitVec 32, n = 5 ∨ n = -3 → IntRead atoi n := by
    rintro n (rfl | rfl) <;> exact Or.inl (by decide)
  have hord : smallJson.Ordered := by
    unfold smallJson
    simp only [Json.Ordered, Json.Every, Json.EveryMember, Json.EveryItem, Json.IsMap,
      increasing_iff_keys, List.map_cons, List.map_nil, and_true]
    decide
  have hint : smallJson.Every (IntsRead atoi) := by
    unfold smallJson
    simp only [Json.Every, Json.EveryMember, Json.EveryItem, IntsRead, and_true, true_and]
    exact ⟨hshort 5 (Or.inl rfl), hshort (-3) (Or.inr rfl)⟩
  exact (parse_dump_iff ⟨smallJson.dump, .STANDARD, atoi⟩ [] smallJson rfl hord hint).1
    (by decide)

/-! ### Reports -/

/-- `json11`, with its strategy of `STANDARD` texts. -/
def json11 (strtod : Str → BitVec 32) : Json11 where
  parse text :=
    match (Json.parse ⟨text, .STANDARD, strtod⟩ []).1 with
    | .ok j => j
    | .error _ => .null
  dump := Json.dump

theorem json11_parse {strtod : Str → BitVec 32} {text : Str} {j : Json}
    (h : TextOf ⟨text, .STANDARD, strtod⟩ maxDepth j) : (json11 strtod).parse text = j := by
  have hparse : Json.parse ⟨text, .STANDARD, strtod⟩ [] = _ := JsonInput.exec_parse h []
  rw [json11]
  simp only [hparse]

/-- The numbers of at most eight digits are short enough for `atoi`. -/
theorem intRead_of_small {n : BitVec 32} (h : n.toInt.natAbs < 10 ^ 8) : IntRead strtod n := by
  refine Or.inl ?_
  have hdigits : (natDigits n.toInt.natAbs).length ≤ 8 := by
    rw [natDigits, str, Nat.toString_eq_ofList_toDigits, String.toList_ofList, List.length_map]
    exact (Nat.length_toDigits_le_iff (by decide) (by decide)).mpr h
  rw [decimal_eq, List.length_append, intDigits10]
  split <;> simp only [List.length_cons, List.length_nil] <;> omega

/-- The object of a report is written and read back. -/
theorem json11_reportJson (strtod : Str → BitVec 32) (r : Report)
    (hlen : r.dataLen.toNat ≤ attestDataMaxlen) :
    (json11 strtod).parse ((json11 strtod).dump r.reportJson) = r.reportJson := by
  have hmax : attestDataMaxlen = 1024 := rfl
  have hsmall : IntRead strtod (r.dataLen.setWidth 32) := by
    refine intRead_of_small ?_
    have hnat : (r.dataLen.setWidth 32).toNat = r.dataLen.toNat := by
      rw [BitVec.toNat_setWidth]
      exact Nat.mod_eq_of_lt (by omega)
    rw [BitVec.toInt_eq_toNat_of_lt (by omega), hnat]
    omega
  refine json11_parse (textOf_dump rfl ?_ ?_ ?_)
  · unfold Report.reportJson
    simp only [Json.Ordered, Json.Every, Json.EveryMember, Json.IsMap, increasing_iff_keys,
      List.map_cons, List.map_nil, and_true, true_and]
    decide
  · unfold Report.reportJson
    simp only [Json.Every, Json.EveryMember, IntsRead, and_true, true_and]
    exact hsmall
  · unfold Report.reportJson
    simp [Json.depth, Json.membersDepth, maxDepth]

/-- The text for data that do not fit. -/
theorem json11_errorText (strtod : Str → BitVec 32) :
    (json11 strtod).parse (str "\x7b \"error\" : \"invalid data length\" \x7d") =
      .object [(str "error", .string (str "invalid data length"))] := by
  refine json11_parse ⟨[], ?_, .stop rfl fun _ => by decide⟩
  have hvalue : Derives .STANDARD strtod 199 (str " \"invalid data length\" \x7d")
      (.value (.string (str "invalid data length"))) (str " \x7d") :=
    .string (.blank (by decide) (token_self (by decide) (by decide)))
      (stringText_dump (str "invalid data length") (str " \x7d"))
  have hmember : Derives .STANDARD strtod 199
      (str " \"error\" : \"invalid data length\" \x7d")
      (.members [(str "error", .string (str "invalid data length"))]) [] :=
    .lastMember (.blank (by decide) (token_self (by decide) (by decide)))
      (stringText_dump (str "error") (str " : \"invalid data length\" \x7d"))
      (.blank (by decide) (token_self (by decide) (by decide))) hvalue
      (.blank (by decide) (token_self (by decide) (by decide)))
  exact .object (n := 199) (token_self (by decide) (by decide)) hmember

/-- What `stringfy` wrote is read back into any report, if the data fit; else
`fromJson` throws. -/
theorem report_round_trip (strtod : Str → BitVec 32) (r c : Report) {fuel : ℕ}
    (hfuel : attestDataMaxlen < fuel) :
    (r.dataLen.toNat ≤ attestDataMaxlen → ∃ s,
      exec (fromJson (json11 strtod) fuel c.report (r.stringfy (json11 strtod))) ⟨c.mem, []⟩ =
          (.ok ⟨⟩, s) ∧ Report.Same ⟨s.mem, c.report⟩ r) ∧
    (attestDataMaxlen < r.dataLen.toNat → ∃ s,
      exec (fromJson (json11 strtod) fuel c.report (r.stringfy (json11 strtod))) ⟨c.mem, []⟩ =
          (.error .outOfRange, s)) := by
  constructor
  · intro hlen
    have hshort : ¬ r.dataLen > BitVec.ofNat 64 attestDataMaxlen := by
      rw [gt_iff_lt, BitVec.lt_def, BitVec.toNat_ofNat, Nat.mod_eq_of_lt (by decide)]
      omega
    have hwritten : (json11 strtod).parse (r.stringfy (json11 strtod)) = r.reportJson := by
      rw [Report.stringfy, if_neg hshort, json11_reportJson strtod r hlen]
    exact ⟨_, exec_fromJson (json11 strtod) hfuel hlen hwritten c.report ⟨c.mem, []⟩,
      same_loadReport ⟨c.mem, []⟩ c.report r hlen⟩
  · intro hlong
    have hmax : attestDataMaxlen = 1024 := rfl
    have htoolong : r.dataLen > BitVec.ofNat 64 attestDataMaxlen := by
      rw [gt_iff_lt, BitVec.lt_def, BitVec.toNat_ofNat, Nat.mod_eq_of_lt (by decide)]
      omega
    -- no key of a report is in the object, so that the first field has no digits
    have hkey : ((json11 strtod).parse (r.stringfy (json11 strtod))).get (str "device_pubkey") =
        .null := by
      rw [Report.stringfy, if_pos htoolong, json11_errorText]
      rfl
    have hfirst : ∀ i, i < 1 → hexByte [] (BitVec.ofNat 32 i) = some 0 := fun i hi => by
      rw [Nat.lt_one_iff.mp hi]
      rfl
    have hthrows : exec (hexToBytes .devPublicKey c.report (BitVec.ofNat 64 publicKeySize) []
        fuel) ⟨c.mem, []⟩ = (.error .outOfRange, _) :=
      exec_hexToBytes_throws .devPublicKey c.report (by decide) (by decide) hfirst rfl
        (show 1 < fuel by omega) ⟨c.mem, []⟩
    exact ⟨_, exec_bind_error (by rw [hkey]; exact hthrows)⟩

theorem report_round_trip_small :
    ∃ s, exec (fromJson (json11 atoi) 1025 0x4000#64 (smallReport.stringfy (json11 atoi)))
        ⟨fun _ => 0xff, []⟩ = (.ok ⟨⟩, s) ∧ Report.Same ⟨s.mem, 0x4000#64⟩ smallReport :=
  (report_round_trip atoi smallReport ⟨fun _ => 0xff, 0x4000#64⟩
    (Nat.lt_succ_self attestDataMaxlen)).1 (by decide +kernel)

end KeystoneSdk
