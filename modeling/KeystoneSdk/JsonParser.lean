/-
The parser of `json11.cpp` (`JsonParser`, `Json::parse`, `Json::parse_multi`).

A parser is an index into a text.  It does not stop at an error: `fail` notes
the first one and lets its callers go on until they look at `failed`.

* `JsonInput`, `JsonParser`, `ParserM` — the constant and the changing members;
* `consumeGarbage`, `getNextToken`, `parseString`, `parseNumber`, `expect` — the
  tokens;
* `parseJson`, `objectLoop`, `arrayLoop` — values;
* `Json.parse`, `Json.parseMulti` — whole texts.

A read behind the terminating zero of the text, a decrement of the index 0 and
more iterations than the fuel allows stop a run (`JsonStop`).
-/
import KeystoneSdk.ReportJson
import KeystoneSdk.RunnerOptions

open ByteMemory StopM

namespace KeystoneSdk

/-- `JsonParse`. -/
inductive JsonParse
  | STANDARD | COMMENTS
  deriving DecidableEq

/-- The members of a `JsonParser` that never change; `strtod` gives the
`int_value` of the `double` that `std::strtod` reads at the start of a text. -/
structure JsonInput where
  text : Str
  strategy : JsonParse
  strtod : Str → BitVec 32

/-- The members of a `JsonParser` that change. -/
@[ext] structure JsonParser where
  i : ℕ
  err : Str
  failed : Bool

/-- Why a parse does not come back. -/
inductive JsonStop
  | outOfRange | underflow | fuel
  deriving DecidableEq

abbrev ParserM := StopM JsonStop JsonParser

/-- `max_depth`. -/
def maxDepth : ℕ := 200

/-- `std::numeric_limits<int>::digits10`. -/
def intDigits10 : ℕ := 9

/-! ### Characters -/

/-- `esc(char)`; `%d` prints a `char` as the signed number it is. -/
def esc (c : Byte) : Str :=
  if 0x20 ≤ c ∧ c ≤ 0x7f then str "'" ++ [c] ++ str "' (" ++ str (toString c.toInt) ++ str ")"
  else str "(" ++ str (toString c.toInt) ++ str ")"

/-- A blank, a carriage return, a line feed or a tab. -/
def isBlank (c : Byte) : Bool := c = 32 || c = 13 || c = 10 || c = 9

def isDigit (c : Byte) : Bool := 48 ≤ c && c ≤ 57

def isHexDigit (c : Byte) : Bool :=
  (97 ≤ c && c ≤ 102) || (65 ≤ c && c ≤ 70) || (48 ≤ c && c ≤ 57)

/-- `encode_utf8`, of a number that is not negative. -/
def utf8 (pt : ℕ) : Str :=
  if pt < 0x80 then [BitVec.ofNat 8 pt]
  else if pt < 0x800 then [BitVec.ofNat 8 (pt >>> 6 ||| 0xC0), BitVec.ofNat 8 (pt &&& 0x3F ||| 0x80)]
  else if pt < 0x10000 then
    [BitVec.ofNat 8 (pt >>> 12 ||| 0xE0), BitVec.ofNat 8 (pt >>> 6 &&& 0x3F ||| 0x80),
      BitVec.ofNat 8 (pt &&& 0x3F ||| 0x80)]
  else
    [BitVec.ofNat 8 (pt >>> 18 ||| 0xF0), BitVec.ofNat 8 (pt >>> 12 &&& 0x3F ||| 0x80),
      BitVec.ofNat 8 (pt >>> 6 &&& 0x3F ||| 0x80), BitVec.ofNat 8 (pt &&& 0x3F ||| 0x80)]

/-- `encode_utf8`. -/
def encodeUtf8 (pt : ℤ) (out : Str) : Str := if pt < 0 then out else out ++ utf8 pt.toNat

/-- `data[key] = value` on a `std::map`, whose keys stay in order. -/
def mapInsert (key : Str) (value : Json) : List (Str × Json) → List (Str × Json)
  | [] => [(key, value)]
  | (k, v) :: rest =>
    if key = k then (key, value) :: rest
    else if key < k then (key, value) :: (k, v) :: rest
    else (k, v) :: mapInsert key value rest

namespace JsonInput

/-! ### The text and the index -/

/-- `fail`. -/
def fail {α : Type} (msg : Str) (errRet : α) : ParserM α := do
  modify fun s => { s with err := if s.failed then s.err else msg, failed := true }
  pure errRet

/-- `i += n`. -/
def advance (n : ℕ) : ParserM Unit := modify fun s => { s with i := s.i + n }

/-- `i--`. -/
def back : ParserM Unit := do
  let s ← get
  if s.i = 0 then throw .underflow
  else set { s with i := s.i - 1 }

variable (P : JsonInput)

/-- `str[i + n]`: the character behind the last is a zero. -/
def charAt (n : ℕ) : ParserM Byte := do
  let s ← get
  if s.i + n ≤ P.text.length then pure (P.text.getD (s.i + n) 0) else throw .outOfRange

/-- `str[i++]`. -/
def next : ParserM Byte := do
  let ch ← P.charAt 0
  advance 1
  pure ch

/-- `str.substr(i, n)`. -/
def substr (n : ℕ) : ParserM Str := do
  let s ← get
  if s.i ≤ P.text.length then pure ((P.text.drop s.i).take n) else throw .outOfRange

/-- `i == str.size()`. -/
def atEnd : ParserM Bool := do
  let s ← get
  pure (s.i = P.text.length)

/-- `i > str.size() - 2`; the difference of a smaller size wraps to a number that
no index exceeds. -/
def pastLastTwo : ParserM Bool := do
  let s ← get
  pure (2 ≤ P.text.length && P.text.length - 2 < s.i)

/-- More than a loop that moves the index each time can iterate. -/
def loopFuel : ℕ := P.text.length + 2

/-- `while (test(str[i])) i++;`, of a test that is false of a zero. -/
def skipWhile (test : Byte → Bool) : ℕ → ParserM Unit
  | 0 => throw .fuel
  | fuel + 1 => do
    let ch ← P.charAt 0
    if test ch then do
      advance 1
      skipWhile test fuel
    else pure ()

/-! ### Garbage -/

/-- `consume_whitespace`. -/
def consumeWhitespace : ParserM Unit := P.skipWhile isBlank P.loopFuel

/-- The loop of an inline comment. -/
def inlineLoop : ℕ → ParserM Unit
  | 0 => throw .fuel
  | fuel + 1 => do
    let s ← get
    if P.text.length ≤ s.i then pure ()
    else
      let ch ← P.charAt 0
      if ch = 10 then pure ()
      else
        advance 1
        inlineLoop fuel

/-- `str[i] == '*' && str[i+1] == '/'`. -/
def closesComment : ParserM Bool := do
  let ch ← P.charAt 0
  if ch = 42 then do
    let ch ← P.charAt 1
    pure (ch = 47)
  else pure false

/-- The loop of a multiline comment; what `fail` returns is `false`. -/
def multilineLoop : ℕ → ParserM Bool
  | 0 => throw .fuel
  | fuel + 1 => do
    let closes ← P.closesComment
    if closes then pure true
    else
      advance 1
      let past ← P.pastLastTwo
      if past then fail (str "unexpected end of input inside multi-line comment") false
      else multilineLoop fuel

/-- `consume_comment`. -/
def consumeComment : ParserM Bool := do
  let ch ← P.charAt 0
  if ch = 47 then
    advance 1
    let ended ← P.atEnd
    if ended then fail (str "unexpected end of input after start of comment") false
    else
      let ch ← P.charAt 0
      if ch = 47 then
        advance 1
        P.inlineLoop P.loopFuel
        pure true
      else if ch = 42 then
        advance 1
        let past ← P.pastLastTwo
        if past then fail (str "unexpected end of input inside multi-line comment") false
        else
          let closed ← P.multilineLoop P.loopFuel
          if closed then
            advance 2
            pure true
          else pure false
      else fail (str "malformed comment") false
  else pure false

/-- The `do` loop of `consume_garbage`. -/
def commentLoop : ℕ → ParserM Unit
  | 0 => throw .fuel
  | fuel + 1 => do
    let commentFound ← P.consumeComment
    let s ← get
    if s.failed then pure ()
    else
      P.consumeWhitespace
      if commentFound then commentLoop fuel else pure ()

/-- `consume_garbage`. -/
def consumeGarbage : ParserM Unit := do
  P.consumeWhitespace
  if P.strategy = .COMMENTS then P.commentLoop P.loopFuel else pure ()

/-- `get_next_token`. -/
def getNextToken : ParserM Byte := do
  P.consumeGarbage
  let s ← get
  if s.failed then pure 0
  else
    let ended ← P.atEnd
    if ended then fail (str "unexpected end of input") 0 else P.next

/-! ### Strings -/

/-- The byte a backslash and a character stand for. -/
def unescape (ch : Byte) : Option Byte :=
  if ch = 98 then some 8
  else if ch = 102 then some 12
  else if ch = 110 then some 10
  else if ch = 114 then some 13
  else if ch = 116 then some 9
  else if ch = 34 ∨ ch = 92 ∨ ch = 47 then some ch
  else none

/-- A lead surrogate and a trail surrogate. -/
def surrogates (lead trail : ℤ) : Bool :=
  0xD800 ≤ lead && lead ≤ 0xDBFF && (0xDC00 ≤ trail && trail ≤ 0xDFFF)

/-- The character two surrogates stand for. -/
def astral (lead trail : ℕ) : ℕ := ((lead - 0xD800) <<< 10 ||| (trail - 0xDC00)) + 0x10000

/-- The escape of a number; `loop` goes on with what is behind it. -/
def unicodeEscape (loop : Str → ℤ → ParserM Str) (out : Str) (last : ℤ) : ParserM Str := do
  let digits ← P.substr 4
  if digits.length < 4 then fail (str "bad \\u escape: " ++ digits) []
  else if ¬ digits.all isHexDigit then fail (str "bad \\u escape: " ++ digits) []
  else
    advance 4
    if surrogates last (leadingHex digits) then
      loop (encodeUtf8 (astral last.toNat (leadingHex digits)) out) (-1)
    else loop (encodeUtf8 last out) (leadingHex digits)

/-- What follows a backslash; `loop` goes on with what is behind the escape. -/
def escapeSequence (loop : Str → ℤ → ParserM Str) (out : Str) (last : ℤ) : ParserM Str := do
  let ended ← P.atEnd
  if ended then fail (str "unexpected end of input in string") []
  else
    let ch ← P.next
    if ch = 117 then P.unicodeEscape loop out last
    else
      match unescape ch with
      | some c => loop (encodeUtf8 last out ++ [c]) (-1)
      | none => fail (str "invalid escape character " ++ esc ch) []

/-- The loop of `parse_string`, with its `out` and `last_escaped_codepoint`. -/
def stringLoop : ℕ → Str → ℤ → ParserM Str
  | 0, _, _ => throw .fuel
  | fuel + 1, out, last => do
    let ended ← P.atEnd
    if ended then fail (str "unexpected end of input in string") []
    else
      let ch ← P.next
      if ch = 34 then pure (encodeUtf8 last out)
      else if ch ≤ 0x1f then fail (str "unescaped " ++ esc ch ++ str " in string") []
      else if ch ≠ 92 then stringLoop fuel (encodeUtf8 last out ++ [ch]) (-1)
      else P.escapeSequence (stringLoop fuel) out last

/-- `parse_string`. -/
def parseString : ParserM Str := P.stringLoop P.loopFuel [] (-1)

/-! ### Numbers -/

/-- The digits of a fraction or an exponent: at least one. -/
def someDigits (msg : Str) (k : ParserM Json) : ParserM Json := do
  let ch ← P.charAt 0
  if isDigit ch then
    P.skipWhile isDigit P.loopFuel
    k
  else fail msg .null

/-- The exponent part, and the value of a number that starts at `start`. -/
def exponentPart (start : ℕ) : ParserM Json := do
  let value : ParserM Json := pure (.number (P.strtod (P.text.drop start)))
  let ch ← P.charAt 0
  if ch = 101 ∨ ch = 69 then
    advance 1
    let ch ← P.charAt 0
    if ch = 43 ∨ ch = 45 then
      advance 1
      P.someDigits (str "at least one digit required in exponent") value
    else P.someDigits (str "at least one digit required in exponent") value
  else value

/-- What follows the integer part of a number that starts at `start`. -/
def fractionPart (start : ℕ) : ParserM Json := do
  let ch ← P.charAt 0
  let s ← get
  if ch ≠ 46 ∧ ch ≠ 101 ∧ ch ≠ 69 ∧ s.i - start ≤ intDigits10 then
    pure (.number (atoi (P.text.drop start)))
  else if ch = 46 then
    advance 1
    P.someDigits (str "at least one digit required in fractional part") (P.exponentPart start)
  else P.exponentPart start

/-- The integer part, and what follows it. -/
def integerPart (start : ℕ) : ParserM Json := do
  let ch ← P.charAt 0
  if ch = 48 then
    advance 1
    let ch ← P.charAt 0
    if isDigit ch then fail (str "leading 0s not permitted in numbers") .null
    else P.fractionPart start
  else if isDigit ch then
    advance 1
    P.skipWhile isDigit P.loopFuel
    P.fractionPart start
  else fail (str "invalid " ++ esc ch ++ str " in number") .null

/-- `parse_number`. -/
def parseNumber : ParserM Json := do
  let s ← get
  let ch ← P.charAt 0
  if ch = 45 then
    advance 1
    P.integerPart s.i
  else P.integerPart s.i

/-! ### Values -/

/-- `expect`; its assertion is that `i` is not 0. -/
def expect (expected : Str) (res : Json) : ParserM Json := do
  back
  let got ← P.substr expected.length
  if got = expected then
    advance expected.length
    pure res
  else fail (str "parse error: expected " ++ expected ++ str ", got " ++ got) .null

/-- `parse_json` behind the first character of a value; `members` and `items` are
the loops of an object and of an array. -/
def startValue (members : Byte → ParserM Json) (items : ParserM Json) (ch : Byte) :
    ParserM Json := do
  if ch = 45 ∨ isDigit ch then
    back
    P.parseNumber
  else if ch = 116 then P.expect (str "true") (.bool true)
  else if ch = 102 then P.expect (str "false") (.bool false)
  else if ch = 110 then P.expect (str "null") .null
  else if ch = 34 then
    let out ← P.parseString
    pure (.string out)
  else if ch = 123 then
    let ch ← P.getNextToken
    if ch = 125 then pure (.object []) else members ch
  else if ch = 91 then
    let ch ← P.getNextToken
    if ch = 93 then pure (.array []) else items
  else fail (str "expected value, got " ++ esc ch) .null

/-- The loop over the members of an object behind a member. -/
def nextMember (members : List (Str × Json) → Byte → ParserM Json) (data : List (Str × Json)) :
    ParserM Json := do
  let ch ← P.getNextToken
  if ch = 125 then pure (.object data)
  else if ch ≠ 44 then fail (str "expected ',' in object, got " ++ esc ch) .null
  else
    let ch ← P.getNextToken
    members data ch

/-- The loop over the items of an array behind an item. -/
def nextItem (items : List Json → ParserM Json) (data : List Json) : ParserM Json := do
  let ch ← P.getNextToken
  if ch = 93 then pure (.array data)
  else if ch ≠ 44 then fail (str "expected ',' in list, got " ++ esc ch) .null
  else
    let _ ← P.getNextToken
    items data

mutual

/-- `parse_json`. -/
def parseJson : ℕ → ℕ → ParserM Json
  | 0, _ => throw .fuel
  | fuel + 1, depth => do
    if depth > maxDepth then fail (str "exceeded maximum nesting depth") .null
    else
      let ch ← P.getNextToken
      let s ← get
      if s.failed then pure .null
      else P.startValue (objectLoop fuel depth []) (arrayLoop fuel depth []) ch

/-- The loop over the members of an object. -/
def objectLoop : ℕ → ℕ → List (Str × Json) → Byte → ParserM Json
  | 0, _, _, _ => throw .fuel
  | fuel + 1, depth, data, ch => do
    if ch ≠ 34 then fail (str "expected '\x22' in object, got " ++ esc ch) .null
    else
      let key ← P.parseString
      let s ← get
      if s.failed then pure .null
      else
        let ch ← P.getNextToken
        if ch ≠ 58 then fail (str "expected ':' in object, got " ++ esc ch) .null
        else
          let value ← parseJson fuel (depth + 1)
          let s ← get
          if s.failed then pure .null
          else P.nextMember (objectLoop fuel depth) (mapInsert key value data)

/-- The loop over the items of an array. -/
def arrayLoop : ℕ → ℕ → List Json → ParserM Json
  | 0, _, _ => throw .fuel
  | fuel + 1, depth, data => do
    back
    let item ← parseJson fuel (depth + 1)
    let s ← get
    if s.failed then pure .null
    else P.nextItem (arrayLoop fuel depth) (data ++ [item])

end

/-! ### Texts -/

/-- More than the calls of `parse_json` and the iterations of its loops. -/
def parseFuel : ℕ := 2 * P.text.length + 2

/-- `Json::parse` after the parser was made. -/
def parse : ParserM Json := do
  let result ← P.parseJson P.parseFuel 0
  P.consumeGarbage
  let s ← get
  if s.failed then pure .null
  else if s.i ≠ P.text.length then do
    let ch ← P.charAt 0
    fail (str "unexpected trailing " ++ esc ch) .null
  else pure result

/-- The loop of `Json::parse_multi`, with `parser_stop_pos` and `json_vec`. -/
def multiLoop : ℕ → ℕ → List Json → ParserM (ℕ × List Json)
  | 0, _, _ => throw .fuel
  | fuel + 1, stopPos, vec => do
    let s ← get
    if s.i = P.text.length ∨ s.failed then pure (stopPos, vec)
    else
      let item ← P.parseJson P.parseFuel 0
      let s ← get
      if s.failed then pure (stopPos, vec ++ [item])
      else
        P.consumeGarbage
        let s ← get
        if s.failed then pure (stopPos, vec ++ [item])
        else multiLoop fuel s.i (vec ++ [item])

end JsonInput

/-- `Json::parse`: what it returns, and the parser it leaves. -/
def Json.parse (P : JsonInput) (err : Str) : Except JsonStop Json × JsonParser :=
  exec P.parse ⟨0, err, false⟩

/-- `Json::parse_multi`: the position it stops at and the values, and the parser. -/
def Json.parseMulti (P : JsonInput) (err : Str) : Except JsonStop (ℕ × List Json) × JsonParser :=
  exec (P.multiLoop P.loopFuel 0 []) ⟨0, err, false⟩

end KeystoneSdk
