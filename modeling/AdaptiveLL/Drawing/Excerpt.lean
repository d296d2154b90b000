import AdaptiveLL.Drawing.Text

/-!
# Excerpts of a source text

The line in which a character stands, with the lines around it and a mark below the character.
-/

namespace AdaptiveLL
namespace Excerpt

/-- A line of a text. -/
structure Line where
  /-- Its number, counted from one. -/
  number : Nat
  /-- The index of its first character. -/
  start : Nat
  /-- Its characters, without the line break. -/
  content : List Char

/-- The index of the line break, or of the end of the text. -/
def Line.stop (l : Line) : Nat := l.start + l.content.length

/-- The lines of characters from index `start` on. -/
def linesFrom (number start : Nat) (content : List Char) : List Char → List Line
  | [] => [⟨number, start, content.reverse⟩]
  | c :: cs =>
    if c = '\n' then
      ⟨number, start, content.reverse⟩ :: linesFrom (number + 1) (start + content.length + 1) [] cs
    else linesFrom number start (c :: content) cs

/-- The lines of a text.  A line break ends a line, so behind the last one there is another
line. -/
def linesOf (text : String) : List Line := linesFrom 1 0 [] text.toList

/-- The number of the line in which a character stands; of the last line if there is no such
character. -/
def lineOf (l : List Line) (index : Nat) : Nat :=
  match l.find? fun line => line.start ≤ index && index ≤ line.stop with
  | some line => line.number
  | none => l.length

/-- A number, with spaces in front to fill four places. -/
def padded (n : Nat) : String :=
  let digits := toString n
  Drawing.spaces (4 - digits.length) ++ digits

/-- A line with its number, and a mark below it if it is the one at which the excerpt points. -/
def draw (index current : Nat) (l : Line) : List String :=
  (padded l.number ++ " | " ++ String.ofList l.content)
    :: if l.number = current then ["     | " ++ Drawing.spaces (index - l.start) ++ "^"] else []

/-- The excerpt of a text around a character, with so many lines before and behind. -/
def around (text : String) (index lines : Nat) : String :=
  let all := linesOf text
  let current := lineOf all index
  Drawing.lines
    ((all.filter fun l => current ≤ l.number + lines && l.number ≤ current + lines).flatMap
      (draw index current))

end Excerpt
end AdaptiveLL
