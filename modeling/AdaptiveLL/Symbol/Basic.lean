/-!
# Symbols

A recogniser reads a sequence of symbols.  For a lexer they are code points, for a parser the
types of tokens; both are integers.  One value stands for the end of the input, and it is
smaller than every code point and every token type that a grammar defines.
-/

namespace AdaptiveLL

/-- A code point or a token type. -/
abbrev Symbol := Int

/-- The symbol seen once the input is exhausted. -/
def endOfInput : Symbol := -1

/-- The type of a token that no rule has classified. -/
def unclassified : Symbol := 0

/-- The smallest token type that a grammar defines. -/
def minTokenType : Symbol := 1

/-- The smallest code point. -/
def minCodePoint : Symbol := 0

/-- The largest code point. -/
def maxCodePoint : Symbol := 0x10FFFF

/-- The channel that a parser listens to unless it is told otherwise. -/
def defaultChannel : Int := 0

/-- The code point of a character, as a symbol. -/
def Symbol.ofChar (c : Char) : Symbol := c.toNat

end AdaptiveLL
