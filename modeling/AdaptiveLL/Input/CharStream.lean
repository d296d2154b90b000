import AdaptiveLL.Symbol.Basic

/-!
# Character streams

The characters of a text with a place between them.  Beyond the last character the stream shows
the end of the input for ever.
-/

namespace AdaptiveLL

/-- Characters and a place among them. -/
structure CharStream where
  /-- The characters. -/
  chars : Array Char
  /-- How many of them lie before the place. -/
  index : Nat := 0
deriving Repr, Inhabited

namespace CharStream

/-- The stream of a text, at its beginning. -/
def ofText (text : String) : CharStream := { chars := text.toList.toArray }

/-- The number of characters. -/
def size (s : CharStream) : Nat := s.chars.size

/-- The `k`-th symbol ahead, counting from one. -/
def lookahead (s : CharStream) (k : Nat) : Symbol :=
  match s.chars[s.index + k - 1]? with
  | some c => Symbol.ofChar c
  | none => endOfInput

/-- The next symbol. -/
def peek (s : CharStream) : Symbol := s.lookahead 1

/-- Goes past the next character, if there is one. -/
def consume (s : CharStream) : CharStream :=
  if s.index < s.chars.size then { s with index := s.index + 1 } else s

/-- Goes to a place, or to the end if there is no such place. -/
def seek (s : CharStream) (index : Nat) : CharStream := { s with index := min index s.chars.size }

/-- The characters from `start` up to `stop`. -/
def text (s : CharStream) (start stop : Nat) : String :=
  String.ofList (s.chars.extract start stop).toList

end CharStream

end AdaptiveLL
