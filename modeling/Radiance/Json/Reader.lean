import Radiance.Json

/-!
# Reading JSON

Strict reading: no comments, no trailing commas, no leading zeros or plus signs, and no control
characters in strings.  Text is cut into tokens, and a pushdown machine builds the value from them.
Numbers beyond the range of binary64, unpaired surrogates, and arrays and objects inside
`Json.maxDepth` others have the form of values, and make them unreadable.

## Main definitions

* `Json.lex`: the tokens of a text.
* `Json.Reader.step`: one step of the machine; `Json.ofTokens?` runs it.
* `Json.parse?`: the value of a text.
-/

namespace Radiance.Json

/-! ## Tokens -/

def isBlank (c : Char) : Bool := c = ' ' || c = '\n' || c = '\t' || c = '\r'

/-- The value of a hexadecimal digit. -/
def hexValue? (c : Char) : Option Nat :=
  if '0' ≤ c ∧ c ≤ '9' then some (c.toNat - '0'.toNat)
  else if 'a' ≤ c ∧ c ≤ 'f' then some (c.toNat - 'a'.toNat + 10)
  else if 'A' ≤ c ∧ c ≤ 'F' then some (c.toNat - 'A'.toNat + 10)
  else none

/-- The code of four hexadecimal digits. -/
def hexCode? (a b c d : Char) : Option Nat := do
  return (((← hexValue? a) * 16 + (← hexValue? b)) * 16 + (← hexValue? c)) * 16 + (← hexValue? d)

/-- The character of an escape letter. -/
def escaped? : Char → Option Char
  | '"' => some '"'
  | '\\' => some '\\'
  | '/' => some '/'
  | 'b' => some '\x08'
  | 'f' => some '\x0c'
  | 'n' => some '\n'
  | 'r' => some '\r'
  | 't' => some '\t'
  | _ => none

/-- Whether a code is the first half of a surrogate pair. -/
def isHighSurrogate (n : Nat) : Bool := 0xD800 ≤ n && n < 0xDC00

/-- Whether a code is the second half of a surrogate pair. -/
def isLowSurrogate (n : Nat) : Bool := 0xDC00 ≤ n && n < 0xE000

/-- A part of a quoted string: a character, or the code of a `\\u` escape. -/
inductive Piece
  | char (c : Char)
  | code (n : Nat)
  deriving Repr, DecidableEq

/-- The parts up to the closing quote, and the text after it. -/
def scanQuoted : List Char → Option (List Piece × List Char)
  | '"' :: rest => some ([], rest)
  | '\\' :: 'u' :: a :: b :: c :: d :: rest =>
    match hexCode? a b c d with
    | none => none
    | some n => (scanQuoted rest).map fun (ps, after) => (.code n :: ps, after)
  | '\\' :: e :: rest =>
    match escaped? e with
    | none => none
    | some c => (scanQuoted rest).map fun (ps, after) => (.char c :: ps, after)
  | c :: rest =>
    if c.toNat < 0x20 || c = '\\' then none
    else (scanQuoted rest).map fun (ps, after) => (.char c :: ps, after)
  | [] => none

/-- The characters of the parts of a string; two halves of a surrogate pair make one character. -/
def joinPieces : List Piece → Option (List Char)
  | [] => some []
  | .char c :: rest => (joinPieces rest).map (c :: ·)
  | .code n :: rest =>
    if isHighSurrogate n then
      match rest with
      | .code m :: rest =>
        if isLowSurrogate m then
          (joinPieces rest).map (Char.ofNat (0x10000 + (n - 0xD800) * 0x400 + (m - 0xDC00)) :: ·)
        else none
      | _ => none
    else if isLowSurrogate n then none
    else (joinPieces rest).map (Char.ofNat n :: ·)

/-- The string up to the closing quote, and the text after it. -/
def scanString (cs : List Char) : Option (Token × List Char) :=
  match scanQuoted cs with
  | none => none
  | some (ps, after) =>
    match joinPieces ps with
    | none => some (.brokenString, after)
    | some s => some (.str (String.ofList s), after)

/-- Whether a character may stand in a number. -/
def isNumberChar (c : Char) : Bool :=
  c.isDigit || c = '-' || c = '+' || c = '.' || c = 'e' || c = 'E'

/-- The natural number of a list of decimal digits. -/
def digitsValue (ds : List Char) : Nat := ds.foldl (fun n c => n * 10 + (c.toNat - '0'.toNat)) 0

/-- A significand with more digits on its right, as long as a word of 64 bits holds it, and the
digits that are left. -/
def absorb (significand : Nat) : List Char → Nat × List Char
  | [] => (significand, [])
  | c :: rest =>
    let next := significand * 10 + (c.toNat - '0'.toNat)
    if next < Nat.pow 2 64 then absorb next rest else (significand, c :: rest)

/-- The exponent after its mark, with an optional sign and at least one digit. -/
def exponent? : List Char → Option Int
  | '+' :: ds => if ds ≠ [] ∧ ds.all Char.isDigit then some (digitsValue ds) else none
  | '-' :: ds => if ds ≠ [] ∧ ds.all Char.isDigit then some (-(digitsValue ds : Int)) else none
  | ds => if ds ≠ [] ∧ ds.all Char.isDigit then some (digitsValue ds) else none

/-- The number written by whole digits, fraction digits and an exponent.  Of the digits the leading
ones that a word holds count; a whole digit that is left still moves the point. -/
def decimalNumber (negative : Bool) (whole fraction : List Char) (exponent : Int) : Number :=
  let (w, moved) := absorb 0 whole
  let (c, ignored) := absorb w fraction
  .decimal negative c (exponent + moved.length - (fraction.length - ignored.length : Nat))

/-- The number written by whole digits alone: an integer if a word holds it, and never for a
negative zero. -/
def wholeNumber (negative : Bool) (ds : List Char) : Number :=
  match absorb 0 ds with
  | (n, []) =>
    if !negative then .integer n
    else if n = 0 ∨ Nat.pow 2 63 < n then .decimal true n 0
    else .integer (-(n : Int))
  | (c, moved) => .decimal negative c moved.length

/-- Whether the binary64 value of a number is finite.  With at most 308 whole digits it is. -/
def inRange : Number → Bool
  | .integer _ => true
  | .decimal negative c e =>
    (Nat.toDigits 10 c).length + e ≤ 308 || (Number.decimal negative c e).toFloat.isFinite

/-- The number of a text without its sign. -/
def unsigned? (negative : Bool) (cs : List Char) : Option Number :=
  let whole := cs.takeWhile Char.isDigit
  if whole = [] ∨ (whole.head? = some '0' ∧ whole.length ≠ 1) then none
  else
    match cs.dropWhile Char.isDigit with
    | [] => some (wholeNumber negative whole)
    | '.' :: rest =>
      let fraction := rest.takeWhile Char.isDigit
      if fraction = [] then none
      else
        match rest.dropWhile Char.isDigit with
        | [] => some (decimalNumber negative whole fraction 0)
        | mark :: ds =>
          if mark = 'e' ∨ mark = 'E' then (exponent? ds).map (decimalNumber negative whole fraction)
          else none
    | mark :: ds =>
      if mark = 'e' ∨ mark = 'E' then (exponent? ds).map (decimalNumber negative whole []) else none

/-- The number of a text. -/
def number? : List Char → Option Number
  | '-' :: cs => unsigned? true cs
  | cs => unsigned? false cs

/-- The token of a number. -/
def numberToken (n : Number) : Token := if inRange n then .num n else .wideNumber

/-- The token that starts with a given character, and the text after it. -/
def scanToken (c : Char) (rest : List Char) : Option (Token × List Char) :=
  match c, rest with
  | '{', rest => some (.leftBrace, rest)
  | '}', rest => some (.rightBrace, rest)
  | '[', rest => some (.leftBracket, rest)
  | ']', rest => some (.rightBracket, rest)
  | ':', rest => some (.colon, rest)
  | ',', rest => some (.comma, rest)
  | 'n', 'u' :: 'l' :: 'l' :: rest => some (.null, rest)
  | 't', 'r' :: 'u' :: 'e' :: rest => some (.bool true, rest)
  | 'f', 'a' :: 'l' :: 's' :: 'e' :: rest => some (.bool false, rest)
  | '"', rest => scanString rest
  | c, rest =>
    if isNumberChar c then
      (number? (c :: rest.takeWhile isNumberChar)).map
        (numberToken ·, rest.dropWhile isNumberChar)
    else none

theorem scanQuoted_length {cs after : List Char} {ps : List Piece}
    (h : scanQuoted cs = some (ps, after)) : after.length < cs.length := by
  fun_induction scanQuoted cs generalizing ps after <;> grind [Option.map_eq_some_iff]

/-- A string leaves less text than it was given. -/
theorem scanString_length {cs after : List Char} {t : Token}
    (h : scanString cs = some (t, after)) : after.length < cs.length := by
  unfold scanString at h
  split at h <;> grind [→ scanQuoted_length]

/-- A token leaves no more text than stood after its first character. -/
theorem scanToken_length {c : Char} {rest after : List Char} {t : Token}
    (h : scanToken c rest = some (t, after)) : after.length ≤ rest.length := by
  have drop := (List.dropWhile_suffix isNumberChar (l := rest)).length_le
  unfold scanToken at h
  split at h <;> grind [Option.map_eq_some_iff, → scanString_length]

/-- The tokens of a text, blanks between them skipped. -/
def lex : List Char → Option (List Token)
  | [] => some []
  | c :: rest =>
    if isBlank c then lex rest
    else
      match _h : scanToken c rest with
      | none => none
      | some (t, after) => (lex after).map (t :: ·)
  termination_by cs => cs.length
  decreasing_by
    · simp
    · have := scanToken_length ‹_›
      simp only [List.length_cons]
      omega

/-! ## Values -/

namespace Reader

/-- The fields of an object that were read, the last one first; a name may be unreadable. -/
abbrev Fields := List (Option String × Json)

/-- An array or object with a value still to come. -/
inductive Frame
  | array (done : List Json)
  | object (done : Fields) (name : Option String)
  deriving Inhabited

/-- What may come next, with the parts already read kept in reverse. -/
inductive Expect
  | value
  /-- The first element of an array, or its end. -/
  | firstElement
  /-- A field name, or the end of the object if no comma went before. -/
  | name (done : Fields) (first : Bool)
  | colon (done : Fields) (name : Option String)
  | complete (v : Json)
  deriving Inhabited

/-- The state of the reader: the open arrays and objects, innermost first, and what may come. -/
structure State where
  frames : List Frame
  expect : Expect
  deriving Inhabited

def start : State := ⟨[], .value⟩

/-- The state after the first token of a value. -/
def enter (frames : List Frame) : Token → Option State
  | .null => some ⟨frames, .complete .null⟩
  | .bool b => some ⟨frames, .complete (.bool b)⟩
  | .num n => some ⟨frames, .complete (.num n)⟩
  | .str s => some ⟨frames, .complete (.str s)⟩
  | .wideNumber => some ⟨frames, .complete .unreadable⟩
  | .brokenString => some ⟨frames, .complete .unreadable⟩
  | .leftBracket => some ⟨.array [] :: frames, .firstElement⟩
  | .leftBrace => some ⟨frames, .name [] true⟩
  | _ => none

/-- The state after the end of an array or object, which is unreadable inside `maxDepth` others. -/
def leave (frames : List Frame) (v : Json) : Option State :=
  some ⟨frames, .complete (if frames[maxDepth - 1]?.isSome then .unreadable else v)⟩

/-- The array of the elements that were read. -/
def array (done : List Json) : Json := .arr done.reverse

/-- The object of the fields that were read, unless a name is unreadable. -/
def object (done : Fields) : Json :=
  match done.reverse.mapM fun (name, v) => name.map (·, v) with
  | some fields => .obj fields
  | none => .unreadable

/-- One step of the reader. -/
def step (s : State) (t : Token) : Option State :=
  match s.expect, t, s.frames with
  | .value, t, frames => enter frames t
  | .firstElement, .rightBracket, .array done :: frames => leave frames (array done)
  | .firstElement, t, frames => enter frames t
  | .name done _, .str name, frames => some ⟨frames, .colon done (some name)⟩
  | .name done _, .brokenString, frames => some ⟨frames, .colon done none⟩
  | .name done true, .rightBrace, frames => leave frames (object done)
  | .colon done name, .colon, frames => some ⟨.object done name :: frames, .value⟩
  | .complete v, .comma, .array done :: frames => some ⟨.array (v :: done) :: frames, .value⟩
  | .complete v, .rightBracket, .array done :: frames => leave frames (array (v :: done))
  | .complete v, .comma, .object done name :: frames =>
    some ⟨frames, .name ((name, v) :: done) false⟩
  | .complete v, .rightBrace, .object done name :: frames =>
    leave frames (object ((name, v) :: done))
  | _, _, _ => none

/-- The value of a finished reader. -/
def finish? : State → Option Json
  | ⟨[], .complete v⟩ => some v
  | _ => none

end Reader

/-- The value of a list of tokens. -/
def ofTokens? (ts : List Token) : Option Json :=
  ts.foldlM Reader.step Reader.start >>= Reader.finish?

/-- The value of a text. -/
def parse? (s : String) : Option Json := lex s.toList >>= ofTokens?

end Radiance.Json
