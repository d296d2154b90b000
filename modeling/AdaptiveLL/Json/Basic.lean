/-!
# JSON values

A value as its text gives it.  Integers are told apart from other numbers, since a description of
a network holds integers only; a number with a fraction or an exponent, and negative zero, keeps
its text.  A string may be well formed and yet name no text, when its escapes do not add up to
characters; such a string, and an object with such a key, is `unreadable`.
-/

namespace AdaptiveLL

/-- A JSON value. -/
inductive Json where
  /-- No value. -/
  | null
  /-- A truth value. -/
  | bool (value : Bool)
  /-- A number written as an integer. -/
  | int (value : Int)
  /-- A number written otherwise. -/
  | decimal (lexeme : List Char)
  /-- A text. -/
  | string (value : String)
  /-- A string, or an object with a key, whose escapes name no text. -/
  | unreadable
  /-- A list of values. -/
  | array (items : List Json)
  /-- Named values, in order. -/
  | object (fields : List (String × Json))
deriving Inhabited, Repr

namespace Json

/-- A natural number. -/
def nat (n : Nat) : Json := int n

/-- Nothing, or a value. -/
def ofOption {α : Type} (f : α → Json) : Option α → Json
  | none => null
  | some a => f a

/-- A list of values. -/
def list {α : Type} (f : α → Json) (l : List α) : Json := array (l.map f)

/-! ## Text -/

/-- A hexadecimal digit. -/
def hexDigit (n : Nat) : Char := if n < 10 then Char.ofNat (48 + n) else Char.ofNat (87 + n)

/-- A character within a string: quotes, backslashes and control characters are escaped. -/
def escapeChar (c : Char) : List Char :=
  if c = '"' then ['\\', '"']
  else if c = '\\' then ['\\', '\\']
  else if c.toNat = 8 then ['\\', 'b']
  else if c.toNat = 9 then ['\\', 't']
  else if c.toNat = 10 then ['\\', 'n']
  else if c.toNat = 12 then ['\\', 'f']
  else if c.toNat = 13 then ['\\', 'r']
  else if c.toNat < 32 then
    ['\\', 'u', '0', '0', hexDigit (c.toNat / 16), hexDigit (c.toNat % 16)]
  else [c]

/-- A text in quotes. -/
def quote (s : String) : List Char := '"' :: s.toList.flatMap escapeChar ++ ['"']

mutual

/-- The characters of a value, without blanks. -/
def render : Json → List Char
  | null => ['n', 'u', 'l', 'l']
  | bool true => ['t', 'r', 'u', 'e']
  | bool false => ['f', 'a', 'l', 's', 'e']
  | int n => (toString n).toList
  | decimal lexeme => lexeme
  | string s => quote s
  | unreadable => quote ""
  | array items => '[' :: renderItems items ++ [']']
  | object fields => '\x7b' :: renderFields fields ++ ['\x7d']

/-- The characters of list items, with commas between them. -/
def renderItems : List Json → List Char
  | [] => []
  | [x] => x.render
  | x :: y :: rest => x.render ++ ',' :: renderItems (y :: rest)

/-- The characters of object fields, with commas between them. -/
def renderFields : List (String × Json) → List Char
  | [] => []
  | [(k, v)] => quote k ++ ':' :: v.render
  | (k, v) :: f :: rest => quote k ++ ':' :: v.render ++ ',' :: renderFields (f :: rest)

end

/-- The text of a value, without blanks. -/
def toText (j : Json) : String := String.ofList j.render

end Json

end AdaptiveLL
