import AdaptiveLL.Symbol.Basic
import AdaptiveLL.Json.Basic

/-!
# Tokens

What a lexer makes of a stretch of characters, with the place it comes from.  Characters, lines
and columns are counted in code points; lines from one, the others from zero.
-/

namespace AdaptiveLL

/-- A token. -/
structure Token where
  /-- Its type. -/
  type : Int
  /-- The channel it is on. -/
  channel : Int := defaultChannel
  /-- The index of its first character. -/
  start : Nat := 0
  /-- The index behind its last character. -/
  stop : Nat := 0
  /-- The line it begins in. -/
  line : Nat := 1
  /-- The column it begins in. -/
  column : Nat := 0
  /-- Its number among the tokens. -/
  index : Nat := 0
  /-- Its characters. -/
  text : String := ""
deriving DecidableEq, Repr, Inhabited

namespace Token

/-- A token of a type with a text, at the beginning of the input. -/
def ofText (type : Int) (text : String) : Token := { type, text, stop := text.length }

/-- The token for the end of the input at a place. -/
def endAt (index line column : Nat) : Token :=
  { type := endOfInput, start := index, stop := index, line, column }

/-- Whether this is the end of the input. -/
def isEnd (t : Token) : Bool := t.type = endOfInput

/-- A character of a token's text; line breaks and tabs are written as escapes. -/
def visible (c : Char) : List Char :=
  if c.toNat = 10 then ['\\', 'n']
  else if c.toNat = 13 then ['\\', 'r']
  else if c.toNat = 9 then ['\\', 't']
  else [c]

/-- The text of a token: number, place, characters and type, the channel unless it is the default
one, line and column. -/
def toText (t : Token) : String :=
  let text := if t.isEnd then "<EOF>" else String.ofList (t.text.toList.flatMap visible)
  "[@" ++ toString t.index ++ "," ++ toString t.start ++ ":" ++ toString t.stop ++ "=\x27" ++ text
    ++ "\x27,<" ++ toString t.type ++ ">"
    ++ (if t.channel = defaultChannel then "" else ",channel=" ++ toString t.channel)
    ++ "," ++ toString t.line ++ ":" ++ toString t.column ++ "]"

open Json in
/-- The description of a token. -/
def toJson (t : Token) : Json :=
  object [("token_type", int t.type), ("channel", int t.channel), ("start", nat t.start),
    ("stop", nat t.stop), ("line", nat t.line), ("column", nat t.column),
    ("token_index", nat t.index), ("text", string t.text)]

end Token

end AdaptiveLL
