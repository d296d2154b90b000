import AdaptiveLL.StateKind
import AdaptiveLL.Symbol.IntervalSet
import AdaptiveLL.Command
import AdaptiveLL.Invocation
import AdaptiveLL.StackGraph.Basic

/-!
# Transition networks

A grammar is recognised by walking a network: states joined by transitions, a stretch of states
for every rule.  A transition either consumes a symbol of a certain kind or is free: it calls a
rule, returns from one, asks a predicate, runs an action, or does nothing.

A rule call names the state to continue at once the rule is done (`follow`).  The rule's stop
state has a return transition to every such state; a walk that knows its caller does not use
them, and linking derives them from the calls.

Decisions are numbered.  The state of a decision carries its number, and `decisions` lists the
states in order.  A lexer's network has a state for each mode, from which its token rules part.
-/

namespace AdaptiveLL

/-- A way on from a state. -/
inductive Transition where
  /-- Free. -/
  | epsilon (target : Nat)
  /-- Consumes one symbol. -/
  | symbol (target : Nat) (label : Int)
  /-- Consumes a symbol of a range. -/
  | range (target : Nat) (lo hi : Int)
  /-- Consumes a member of a set. -/
  | set (target : Nat) (set : IntervalSet)
  /-- Consumes a symbol of the vocabulary that is not in a set. -/
  | notSet (target : Nat) (set : IntervalSet)
  /-- Consumes any symbol of the vocabulary. -/
  | wildcard (target : Nat)
  /-- Calls a rule with a precedence, to continue at `follow`. -/
  | call (target rule : Nat) (precedence : Int) (follow : Nat)
  /-- Returns from a rule whose caller is not known. -/
  | ret (target : Nat)
  /-- Free if a predicate of a rule holds. -/
  | predicate (target rule index : Nat) (contextual : Bool)
  /-- Free if the running rule's precedence allows a level. -/
  | precedence (target : Nat) (level : Int)
  /-- Runs an action of a rule. -/
  | action (target rule index : Nat) (contextual : Bool)
deriving DecidableEq, Repr, Inhabited

namespace Transition

/-- Where a transition leads. -/
def target : Transition → Nat
  | epsilon t | symbol t _ | range t _ _ | set t _ | notSet t _ | wildcard t | call t _ _ _
  | ret t | predicate t _ _ _ | precedence t _ | action t _ _ _ => t

/-- Whether a transition consumes nothing. -/
def isFree : Transition → Bool
  | epsilon _ | call .. | ret _ | predicate .. | precedence .. | action .. => true
  | _ => false

/-- Whether a transition returns from a rule. -/
def isReturn : Transition → Bool
  | ret _ => true
  | _ => false

/-- Whether a transition consumes `x`, in a vocabulary from `lo` to `hi`. -/
def consumes (lo hi x : Symbol) : Transition → Bool
  | symbol _ label => label = x
  | range _ a b => a ≤ x && x ≤ b
  | set _ s => s.contains x
  | notSet _ s => lo ≤ x && x ≤ hi && !s.contains x
  | wildcard _ => lo ≤ x && x ≤ hi
  | _ => false

/-- The text of a transition. -/
def toText : Transition → String
  | epsilon _ => "ε"
  | symbol _ label => toString label
  | range _ a b => toString a ++ ".." ++ toString b
  | set _ s => s.toText
  | notSet _ s => "~" ++ s.toText
  | wildcard _ => "."
  | call _ rule _ _ => "rule " ++ toString rule
  | ret _ => "return"
  | predicate _ rule index _ => "\x7b" ++ toString rule ++ ":" ++ toString index ++ "\x7d?"
  | precedence _ level => "\x7b" ++ toString level ++ ">=prec\x7d?"
  | action _ rule index _ => "action " ++ toString rule ++ ":" ++ toString index

end Transition

/-- A state of a network. -/
structure State where
  /-- Its number, which is its position. -/
  id : Nat
  /-- The rule it belongs to. -/
  rule : Nat
  /-- Its role. -/
  kind : StateKind
  /-- The ways on, in order. -/
  transitions : List Transition := []
  /-- Whether there is a way on and every one is free. -/
  freeOnly : Bool := false
  /-- The number of the decision made here. -/
  decision : Option Nat := none
  /-- Whether leaving is preferred over repeating. -/
  nonGreedy : Bool := false
deriving DecidableEq, Repr, Inhabited

namespace State

/-- Whether a rule ends here. -/
def isStop (s : State) : Bool := s.kind = .ruleStop

/-- The way on by its number among the alternatives, which count from one. -/
def alternative? (s : State) (alt : Nat) : Option Transition :=
  if alt = 0 then none else s.transitions[alt - 1]?

/-- Adds a way on behind the others. -/
def addTransition (s : State) (t : Transition) : State :=
  { s with
    freeOnly := if s.transitions.isEmpty then t.isFree else s.freeOnly && t.isFree
    transitions := s.transitions ++ [t] }

/-- Whether there is a way on and every one is free, worked out from the transitions. -/
def hasOnlyFree (s : State) : Bool :=
  !s.transitions.isEmpty && s.transitions.all Transition.isFree

/-- The text of a state: number and kind, then the decision if there is one. -/
def toText (s : State) : String :=
  toString s.id ++ ":" ++ s.kind.name
    ++ (match s.decision with
        | some d => " d=" ++ toString d
        | none => "")

end State

/-- What a network recognises. -/
inductive NetworkKind where
  /-- Tokens from characters. -/
  | lexer
  /-- Sentences from tokens. -/
  | parser
deriving DecidableEq, Repr, Inhabited

/-- The name of a kind in descriptions of networks. -/
def NetworkKind.name : NetworkKind → String
  | lexer => "Lexer"
  | parser => "Parser"

/-- A transition network. -/
structure Network where
  /-- What it recognises. -/
  kind : NetworkKind
  /-- The largest symbol of its vocabulary. -/
  maxSymbol : Int
  /-- The states, by number. -/
  states : Array State := #[]
  /-- The state of each decision. -/
  decisions : Array Nat := #[]
  /-- The start state of each rule. -/
  ruleStarts : Array Nat := #[]
  /-- The stop state of each rule. -/
  ruleStops : Array Nat := #[]
  /-- The name of each rule. -/
  ruleNames : Array String := #[]
  /-- The token type of each rule of a lexer. -/
  tokenTypes : Array Int := #[]
  /-- The start state of each mode of a lexer. -/
  modeStarts : Array Nat := #[]
  /-- The name of each mode of a lexer. -/
  modeNames : Array String := #[]
  /-- The commands that actions of a lexer refer to. -/
  commands : Array Command := #[]
deriving DecidableEq, Inhabited

namespace Network

/-- A state by number; one without ways on if there is none. -/
def state (n : Network) (id : Nat) : State := n.states[id]?.getD { id, rule := 0, kind := .basic }

/-- A state by number. -/
def state? (n : Network) (id : Nat) : Except RecognitionError State :=
  match n.states[id]? with
  | some s => .ok s
  | none => .error (.badIndex "states" id)

/-- Whether a rule ends at a state. -/
def isStop (n : Network) (id : Nat) : Bool := (n.state id).isStop

/-- The state of a decision. -/
def decisionState (n : Network) (decision : Nat) : State :=
  n.state (n.decisions[decision]?.getD n.states.size)

/-- The smallest symbol of the vocabulary. -/
def minSymbol (n : Network) : Symbol :=
  match n.kind with
  | .lexer => minCodePoint
  | .parser => minTokenType

/-- The number of the rule with a name. -/
def rule? (n : Network) (name : String) : Option Nat := n.ruleNames.findIdx? (· == name)

/-- Where the rule called from a state returns to. -/
def follow (n : Network) (caller : Nat) : Except RecognitionError Nat :=
  match (n.states[caller]?.bind fun s => s.transitions.head?) with
  | some (.call _ _ _ follow) => .ok follow
  | _ => .error (.invalidNetwork (.noCall caller))

/-- The text of a state, with the name of its rule if it has one. -/
def describe (n : Network) (id : Nat) : String :=
  let s := n.state id
  match n.ruleNames[s.rule]? with
  | some name => s.toText ++ " (" ++ name ++ ")"
  | none => s.toText

end Network

/-! ## Stacks from invocations -/

/-- Adds the node for a stack of rule invocations, outermost first: the states at which their
callers continue. -/
def StackGraph.pushInvocations (n : Network) (g : StackGraph) (stack : List Invocation) :
    Except RecognitionError StackRef × StackGraph :=
  go StackRef.bottom g stack
where
  /-- Pushes the remaining invocations on `below`. -/
  go (below : StackRef) (g : StackGraph) :
      List Invocation → Except RecognitionError StackRef × StackGraph
    | [] => (.ok below, g)
    | frame :: rest =>
      match frame.caller with
      | none => go below g rest
      | some caller =>
        match n.follow caller with
        | .error e => (.error e, g)
        | .ok follow =>
          let (r, g) := g.push below (some follow)
          go r g rest

end AdaptiveLL
