/-!
# JSON values

Values of the JSON data format, their tokens and their text.  Numbers keep the distinction between
integers and decimals, and objects keep their fields in order with repetitions, because reading a
scene description depends on both.

## Main definitions

* `Json.Number`, `Json.Number.toFloat`: numbers and their binary64 values.
* `Json`, `Json.isReadable`: values, and those that stand for something.
* `Json.Token`: the tokens of the format.
* `Json.tokens`, `Json.text`: how a value is written.
-/

namespace Radiance

/-- A JSON number: an integer that fits a signed or unsigned word, or a decimal
`± coefficient * 10 ^ exponent`. -/
inductive Json.Number
  | integer (n : Int)
  | decimal (negative : Bool) (coefficient : Nat) (exponent : Int)
  deriving Repr, DecidableEq, Inhabited

/-- A JSON value.  A text may have the form of a value and still stand for nothing: a number beyond
the range of binary64, a string with half of a surrogate pair, an object with such a name, an array
or object inside too many others.  Such a value is `unreadable`; it does no harm where nobody looks
at it. -/
inductive Json
  | null
  | bool (b : Bool)
  | num (n : Json.Number)
  | str (s : String)
  | arr (items : List Json)
  | obj (fields : List (String × Json))
  | unreadable
  deriving Repr, Inhabited

namespace Json

/-- The tokens of the format. -/
inductive Token
  | leftBrace | rightBrace | leftBracket | rightBracket | colon | comma
  | null
  | bool (b : Bool)
  | num (n : Number)
  | str (s : String)
  /-- A number beyond the range of binary64. -/
  | wideNumber
  /-- A string with half of a surrogate pair. -/
  | brokenString
  deriving Repr, DecidableEq, Inhabited

/-- The largest number of arrays and objects around and including a readable one. -/
def maxDepth : Nat := 127

mutual

/-- Whether a value and all its parts stand for something. -/
def isReadable : Json → Bool
  | arr items => areReadable items
  | obj fields => fieldsReadable fields
  | unreadable => false
  | _ => true

/-- Whether all elements are readable. -/
def areReadable : List Json → Bool
  | [] => true
  | v :: rest => isReadable v && areReadable rest

/-- Whether the values of all fields are readable. -/
def fieldsReadable : List (String × Json) → Bool
  | [] => true
  | (_, v) :: rest => isReadable v && fieldsReadable rest

end

/-! ## Numbers -/

/-- The binary64 number nearest to a power of ten. -/
def Number.powerOfTen (n : Nat) : Float := Float.ofScientific 1 false n

/-- A binary64 number times a power of ten, by multiplying or dividing once, and by dividing twice
where the power alone is out of range. -/
def Number.scale (x : Float) (exponent : Int) : Float :=
  if 308 < exponent then if x == 0 then 0 else 1 / 0
  else if 0 ≤ exponent then x * powerOfTen exponent.toNat
  else if -308 ≤ exponent then x / powerOfTen (-exponent).toNat
  else if -616 ≤ exponent then x / powerOfTen 308 / powerOfTen (-exponent - 308).toNat
  else 0

/-- The binary64 value of a number: the coefficient is rounded first, then scaled. -/
def Number.toFloat : Number → Float
  | integer n => Float.ofInt n
  | decimal negative c e =>
    let x := scale (Float.ofNat c) e
    if negative then -x else x

/-! ## Constructors and look-up -/

def nat (n : Nat) : Json := num (.integer n)

def int (n : Int) : Json := num (.integer n)

/-- An optional value, `null` when it is missing. -/
def opt {β : Type} (f : β → Json) : Option β → Json
  | none => null
  | some b => f b

/-- The array of the images of a list. -/
def list {β : Type} (f : β → Json) (items : List β) : Json := arr (items.map f)

/-- The last field of an object with the given name. -/
def field? : Json → String → Option Json
  | obj fields, name => (fields.reverse.find? (·.1 = name)).map (·.2)
  | _, _ => none

/-! ## Writing -/

/-- A number as a decimal: whole numbers in digits, others with an exponent. -/
def Number.text : Number → String
  | integer n => toString n
  | decimal negative c e => (if negative then "-" else "") ++ toString c ++ "e" ++ toString e

/-- The four hexadecimal digits of a code below `2 ^ 16`. -/
def hexCode (n : Nat) : List Char :=
  let digit (k : Nat) : Char := Nat.digitChar (n / Nat.pow 16 k % 16)
  [digit 3, digit 2, digit 1, digit 0]

/-- A character inside quotes. -/
def escape (c : Char) : List Char :=
  if c = '"' then ['\\', '"']
  else if c = '\\' then ['\\', '\\']
  else if c.toNat < 0x20 then '\\' :: 'u' :: hexCode c.toNat
  else [c]

def quote (s : String) : List Char := '"' :: (s.toList.flatMap escape ++ ['"'])

def Token.chars : Token → List Char
  | leftBrace => ['{']
  | rightBrace => ['}']
  | leftBracket => ['[']
  | rightBracket => [']']
  | colon => [':']
  | comma => [',']
  | null => ['n', 'u', 'l', 'l']
  | bool true => ['t', 'r', 'u', 'e']
  | bool false => ['f', 'a', 'l', 's', 'e']
  | num n => n.text.toList
  | str s => quote s
  | wideNumber => ['1', 'e', '3', '0', '9']
  | brokenString => ['"', '\\', 'u', 'd', '8', '0', '0', '"']

mutual

/-- The tokens of a value.  An unreadable one is written as a number out of range. -/
def tokens : Json → List Token
  | null => [.null]
  | bool b => [.bool b]
  | num n => [.num n]
  | str s => [.str s]
  | arr items => .leftBracket :: (elementTokens items ++ [.rightBracket])
  | obj fields => .leftBrace :: (fieldTokens fields ++ [.rightBrace])
  | unreadable => [.wideNumber]

/-- The tokens of array elements, with commas between them. -/
def elementTokens : List Json → List Token
  | [] => []
  | [v] => tokens v
  | v :: rest => tokens v ++ .comma :: elementTokens rest

/-- The tokens of object fields, with commas between them. -/
def fieldTokens : List (String × Json) → List Token
  | [] => []
  | [(name, v)] => .str name :: .colon :: tokens v
  | (name, v) :: rest => .str name :: .colon :: (tokens v ++ .comma :: fieldTokens rest)

end

/-- The text of a value, without blanks. -/
def text (v : Json) : String := String.ofList (v.tokens.flatMap Token.chars)

end Json

end Radiance
