import AdaptiveLL.Automaton.Basic
import AdaptiveLL.Drawing.Text

/-!
# Drawings of automata

The automaton of a decision as text, one line per edge, and as a graph.  A state that recognises
something begins with a colon and ends with an arrow to what it recognises; one that asks for the
caller's stack has a caret.  Edges that lead nowhere are left out.
-/

namespace AdaptiveLL

/-- What the symbols of an automaton are. -/
inductive SymbolStyle where
  /-- Token types. -/
  | types
  /-- Characters. -/
  | characters
deriving DecidableEq, Repr

namespace SymbolStyle

/-- The digits of a number in base sixteen. -/
def hex (n : Nat) : String := String.ofList (Nat.toDigits 16 n)

/-- A character as it is written between quotes: as itself if it is a printable one of the first
128, and as an escape otherwise. -/
def escape (c : Char) : String :=
  if c = '\t' then "\\t"
  else if c = '\r' then "\\r"
  else if c = '\n' then "\\n"
  else if c = '\'' || c = '"' || c = '\\' then String.ofList ['\\', c]
  else if 32 ≤ c.toNat && c.toNat ≤ 126 then c.toString
  else "\\u\x7b" ++ hex c.toNat ++ "\x7d"

/-- The text of a symbol. -/
def label (style : SymbolStyle) (x : Symbol) : String :=
  if x = endOfInput then "EOF"
  else if style = .characters && 0 ≤ x && decide x.toNat.isValidChar then
    "\x27" ++ escape (Char.ofNat x.toNat) ++ "\x27"
  else toString x

end SymbolStyle

namespace Automaton

/-- What a state recognises. -/
def recognised (style : SymbolStyle) (s : AutomatonState) : String :=
  match s.guardedAlts, style, s.prediction with
  | some pairs, _, _ => "=>[" ++ ", ".intercalate (pairs.map GuardedAlt.toText) ++ "]"
  | none, .characters, _ => "=>" ++ toString s.tokenType
  | none, .types, some alt => "=>" ++ toString alt
  | none, .types, none => ""

/-- The label of a state. -/
def stateLabel (a : Automaton) (style : SymbolStyle) (t : Target) : String :=
  match a.state? t with
  | none => t.toText
  | some s =>
    (if s.isAccept then ":" else "") ++ t.toText ++ (if s.needsFullContext then "^" else "")
      ++ (if s.isAccept then recognised style s else "")

/-- The states with their targets, in order. -/
def numbered (a : Automaton) : List (Target × AutomatonState) :=
  a.states.toList.mapIdx fun i s => (.state i, s)

/-- The edges of a state that lead somewhere. -/
def liveEdges (s : AutomatonState) : List (Symbol × Target) :=
  s.edges.filter fun e => !e.2.isError

/-- An automaton as text. -/
def toText (a : Automaton) (style : SymbolStyle) : String :=
  Drawing.lines <|
    a.numbered.flatMap fun (source, s) =>
      (liveEdges s).map fun (x, t) =>
        a.stateLabel style source ++ "-" ++ style.label x ++ "->" ++ a.stateLabel style t

/-- A state and its edges as a node of a directed graph and its arrows. -/
def dotState (a : Automaton) (style : SymbolStyle) (source : Target) (s : AutomatonState) :
    List String :=
  ("  " ++ source.toText ++ " [shape=" ++ (if s.isAccept then "doublecircle" else "circle")
      ++ ", label=" ++ Drawing.quoted (a.stateLabel style source) ++ "]")
    :: (liveEdges s).map fun (x, t) =>
      "  " ++ source.toText ++ " -> " ++ t.toText ++ " [label=" ++ Drawing.quoted (style.label x)
        ++ "]"

/-- An automaton in the language of directed graphs, its start state filled. -/
def toDot (a : Automaton) (style : SymbolStyle) : String :=
  Drawing.lines
    (["digraph DFA_" ++ toString a.decision ++ " \x7b", "  rankdir=LR;"]
      ++ a.numbered.flatMap (fun (source, s) => a.dotState style source s)
      ++ (a.start.map fun t => "  " ++ t.toText ++ " [style=filled, fillcolor=lightblue]").toList
      ++ ["\x7d"])

end Automaton
end AdaptiveLL
