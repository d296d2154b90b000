import AdaptiveLL.Network.Basic

/-!
# Grammars

A grammar is a list of named rules, each with a body built from elements: symbols, calls of other
rules, sequences, alternatives, repetitions, predicates, actions and lexer commands.  The rules of
a lexer are grouped into modes; a fragment rule can be called but makes no token of its own.
-/

namespace AdaptiveLL

/-- What a rule's body is built from. -/
inductive Element where
  /-- One symbol. -/
  | symbol (label : Int)
  /-- A symbol of a range. -/
  | range (lo hi : Int)
  /-- A member of a set. -/
  | set (set : IntervalSet)
  /-- A symbol of the vocabulary that is not in a set. -/
  | notSet (set : IntervalSet)
  /-- Any symbol of the vocabulary. -/
  | wildcard
  /-- A rule, called with a precedence. -/
  | call (rule : String) (precedence : Int)
  /-- Elements one after another. -/
  | seq (items : List Element)
  /-- One of several elements, numbered from one. -/
  | alt (items : List Element)
  /-- An element or nothing; whether the element is preferred. -/
  | optional (body : Element) (greedy : Bool)
  /-- An element any number of times; whether more are preferred. -/
  | star (body : Element) (greedy : Bool)
  /-- An element one or more times; whether more are preferred. -/
  | plus (body : Element) (greedy : Bool)
  /-- A predicate of the rule; whether it looks at the caller's stack. -/
  | predicate (index : Nat) (contextual : Bool)
  /-- The running rule's precedence must allow a level. -/
  | precedence (level : Int)
  /-- An action of the rule. -/
  | action (index : Nat)
  /-- A lexer command. -/
  | command (command : Command)
deriving Inhabited, Repr

namespace Element

/-- The end of the input. -/
def endOfInput : Element := symbol AdaptiveLL.endOfInput

/-- One character. -/
def char (c : Char) : Element := symbol (Symbol.ofChar c)

/-- The characters of a text, one after another. -/
def literal (text : String) : Element :=
  match text.toList with
  | [c] => char c
  | cs => seq (cs.map char)

/-- A character of a range. -/
def charRange (first last : Char) : Element := range (Symbol.ofChar first) (Symbol.ofChar last)

end Element

/-- A named rule. -/
structure Rule where
  /-- Its name. -/
  name : String
  /-- Its body. -/
  body : Element
  /-- The type of its tokens. -/
  tokenType : Int
  /-- The mode it belongs to. -/
  mode : Nat
  /-- Whether it makes no token of its own. -/
  isFragment : Bool
deriving Inhabited, Repr

/-- A grammar. -/
structure Grammar where
  /-- Whether it is a lexer's or a parser's. -/
  kind : NetworkKind
  /-- The largest symbol of its vocabulary. -/
  maxSymbol : Int
  /-- Its rules, in order. -/
  rules : List Rule := []
  /-- The names of its modes. -/
  modes : List String := []
  /-- The mode that further rules belong to. -/
  currentMode : Nat := 0
deriving Inhabited, Repr

namespace Grammar

/-- A parser's grammar over token types up to a largest one, without rules. -/
def parser (maxTokenType : Int) : Grammar := { kind := .parser, maxSymbol := maxTokenType }

/-- A lexer's grammar without rules.  It begins with one mode. -/
def lexer : Grammar :=
  { kind := .lexer, maxSymbol := maxCodePoint, modes := ["DEFAULT_MODE"] }

/-- Adds a rule to the current mode. -/
def addRule (g : Grammar) (name : String) (body : Element) (tokenType : Int)
    (isFragment : Bool) : Grammar :=
  { g with rules := g.rules ++ [⟨name, body, tokenType, g.currentMode, isFragment⟩] }

/-- Adds a parser rule. -/
def rule (g : Grammar) (name : String) (body : Element) : Grammar :=
  g.addRule name body unclassified false

/-- Adds a rule for tokens of a type. -/
def token (g : Grammar) (name : String) (tokenType : Int) (body : Element) : Grammar :=
  g.addRule name body tokenType false

/-- Adds a rule that makes no token of its own. -/
def fragment (g : Grammar) (name : String) (body : Element) : Grammar :=
  g.addRule name body unclassified true

/-- Begins a mode; the rules that follow belong to it. -/
def mode (g : Grammar) (name : String) : Grammar :=
  { g with modes := g.modes ++ [name], currentMode := g.modes.length }

end Grammar

end AdaptiveLL
