import AdaptiveLL.Input.Position

/-!
# Callbacks of a lexer

A lexer's author may write predicates and actions.  Both are told where the lexer stands
(`Cursor`), and they work over a state of the author's own.
-/

namespace AdaptiveLL

/-- Where a lexer stands. -/
structure Cursor where
  /-- The index of the next character. -/
  index : Nat
  /-- The position of the next character. -/
  position : Position
  /-- The index at which the token begins. -/
  tokenStart : Nat
deriving DecidableEq, Repr, Inhabited

/-- The callbacks of a lexer's author, over a state `σ` that they may read and change. -/
structure LexerHooks (σ : Type) where
  /-- Decides a predicate of a rule. -/
  predicate : (rule index : Nat) → Cursor → σ → Bool × σ
  /-- Runs an action of a rule. -/
  action : (rule index : Nat) → Cursor → σ → σ

/-- Callbacks that accept every predicate and do nothing. -/
def LexerHooks.none : LexerHooks Unit where
  predicate _ _ _ s := (true, s)
  action _ _ _ s := s

end AdaptiveLL
