import AdaptiveLL.Config
import AdaptiveLL.Symbol.Basic

/-!
# Automata

For every decision an automaton is grown while predicting.  Its states are sets of configurations,
no two of them the same; its edges are filled in when they are first followed.  An edge may lead
nowhere (`Target.error`), which records that no configuration is left.

An accepting state says what was recognised: an alternative, alternatives with their guards, or,
in a lexer, a token type with its commands.
-/

namespace AdaptiveLL

/-- Where an edge leads. -/
inductive Target where
  /-- To a state of the automaton. -/
  | state (index : Nat)
  /-- Nowhere: no configuration is left. -/
  | error
deriving DecidableEq, Repr, Inhabited

namespace Target

/-- Whether this is nowhere. -/
def isError : Target → Bool
  | error => true
  | state _ => false

/-- The text of a target. -/
def toText : Target → String
  | state i => "s" ++ toString i
  | error => "ERROR"

end Target

/-- An alternative with the guard under which it may be taken. -/
structure GuardedAlt where
  /-- The guard. -/
  guard : Guard
  /-- The alternative. -/
  alt : Nat
deriving DecidableEq, Repr

/-- The text of a guarded alternative. -/
def GuardedAlt.toText (g : GuardedAlt) : String :=
  "(" ++ g.guard.toText ++ ", " ++ toString g.alt ++ ")"

/-- A state of an automaton. -/
structure AutomatonState where
  /-- Its configurations. -/
  configs : ConfigSet
  /-- Its edges, in ascending order of their symbols. -/
  edges : List (Symbol × Target) := []
  /-- Whether something was recognised. -/
  isAccept : Bool := false
  /-- The alternative recognised. -/
  prediction : Option Nat := none
  /-- The token type recognised. -/
  tokenType : Int := unclassified
  /-- The commands of the token recognised. -/
  commands : Option (List Command) := none
  /-- Whether the caller's stack has to decide. -/
  needsFullContext : Bool := false
  /-- The alternatives recognised, with their guards. -/
  guardedAlts : Option (List GuardedAlt) := none
deriving Inhabited

namespace AutomatonState

/-- A state that recognises nothing. -/
def ofConfigs (configs : ConfigSet) : AutomatonState := { configs }

/-- Whether an edge can be stored for a symbol: for the end of the input and all symbols above it
but the largest of 32 bits. -/
def hasEdgeFor (x : Symbol) : Bool := endOfInput ≤ x && x < 2147483647

/-- Puts an edge into a list in ascending order, in place of an edge for the same symbol. -/
def putEdge (x : Symbol) (t : Target) : List (Symbol × Target) → List (Symbol × Target)
  | [] => [(x, t)]
  | (y, u) :: rest =>
    if x < y then (x, t) :: (y, u) :: rest
    else if x = y then (x, t) :: rest
    else (y, u) :: putEdge x t rest

/-- The edge for a symbol. -/
def edge? (s : AutomatonState) (x : Symbol) : Option Target :=
  (s.edges.find? fun e => e.1 = x).map (·.2)

/-- Stores an edge for a symbol. -/
def setEdge (s : AutomatonState) (x : Symbol) (t : Target) : AutomatonState :=
  if hasEdgeFor x then { s with edges := putEdge x t s.edges } else s

end AutomatonState

/-- The automaton of a decision. -/
structure Automaton where
  /-- The decision. -/
  decision : Nat
  /-- The decision's state in the network. -/
  netState : Nat
  /-- The state to begin in, once it is known. -/
  start : Option Target := none
  /-- The states. -/
  states : Array AutomatonState := #[]
deriving Inhabited

namespace Automaton

/-- The number of states. -/
def size (a : Automaton) : Nat := a.states.size

/-- Whether there is no state. -/
def isEmpty (a : Automaton) : Bool := a.states.isEmpty

/-- The state that a target names. -/
def state? (a : Automaton) : Target → Option AutomatonState
  | .state i => a.states[i]?
  | .error => none

/-- The state with the same configurations as `s`, which is added if there is none. -/
def add (a : Automaton) (s : AutomatonState) : Target × Automaton :=
  match a.states.findIdx? fun t => t.configs.same s.configs with
  | some i => (.state i, a)
  | none =>
    (.state a.states.size,
      { a with states := a.states.push { s with configs := s.configs.publish } })

/-- The edge of a state for a symbol. -/
def edge? (a : Automaton) (source : Target) (x : Symbol) : Option Target :=
  (a.state? source).bind (·.edge? x)

/-- Stores an edge of a state. -/
def setEdge (a : Automaton) (source : Target) (x : Symbol) (t : Target) : Automaton :=
  match source with
  | .state i => { a with states := a.states.modify i (·.setEdge x t) }
  | .error => a

/-- Says where to begin. -/
def setStart (a : Automaton) (t : Target) : Automaton := { a with start := some t }

/-- Drops the states and where to begin. -/
def clear (a : Automaton) : Automaton := { a with start := none, states := #[] }

end Automaton

end AdaptiveLL
