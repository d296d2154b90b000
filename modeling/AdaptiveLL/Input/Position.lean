import AdaptiveLL.Symbol.Basic

/-!
# Positions in a text

Where a character stands, as line and column.  Going past a line break leads to the start of the
next line, going past anything else one column further.
-/

namespace AdaptiveLL

/-- A line, counted from one, and a column in it, counted from zero. -/
structure Position where
  /-- The line. -/
  line : Nat := 1
  /-- The column. -/
  column : Nat := 0
deriving DecidableEq, Repr, Inhabited

namespace Position

/-- The position behind a symbol. -/
def past (p : Position) (x : Symbol) : Position :=
  if x = Symbol.ofChar '\n' then ⟨p.line + 1, 0⟩ else ⟨p.line, p.column + 1⟩

/-- The position behind some characters at the beginning of a text. -/
def behind (cs : List Char) : Position := cs.foldl (fun p c => p.past (Symbol.ofChar c)) {}

end Position
end AdaptiveLL
