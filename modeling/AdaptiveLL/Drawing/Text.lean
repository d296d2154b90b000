/-!
# Text of drawings

Lines, indentation, and texts in double quotes, as the drawings use them.
-/

namespace AdaptiveLL
namespace Drawing

/-- Lines, each with a line break behind it. -/
def lines (l : List String) : String := String.join (l.map (· ++ "\n"))

/-- So many spaces. -/
def spaces (n : Nat) : String := "".pushn ' ' n

/-- A character of a text in double quotes: quotes and backslashes get a backslash. -/
def escapeChar (c : Char) : List Char := if c = '\\' || c = '"' then ['\\', c] else [c]

/-- A text in double quotes. -/
def quoted (s : String) : String :=
  String.ofList ('"' :: s.toList.flatMap escapeChar ++ ['"'])

end Drawing
end AdaptiveLL
