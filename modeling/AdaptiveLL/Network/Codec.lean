import AdaptiveLL.Json.Reader
import AdaptiveLL.Json.Shape
import AdaptiveLL.Network.Link

/-!
# Networks as text

The JSON description of a network and of its parts, to write (`toJson`) and to read (`ofJson?`).
What is written can be read back.  Reading accepts more: blanks, fields in another order, and
tables left out.

`Network.ofText` reads a description and links it.
-/

namespace AdaptiveLL

open Json in
/-- A set is described by its ranges. -/
def IntervalSet.toJson (s : IntervalSet) : Json :=
  object [("ranges", list (fun r => array [int r.1, int r.2]) s.ranges)]

open Json in
/-- Reads a set with the ranges as they are given. -/
def IntervalSet.ofJson? (j : Json) : Option IntervalSet := do
  match ← asRecord? ["ranges"] j with
  | [ranges] => pure ⟨← required (asList? (asPair? asInt32? asInt32?)) ranges⟩
  | _ => none

/-! ## Commands -/

namespace Command
open Json

/-- A command is described by its name and its arguments. -/
def toJson : Command → Json
  | channel c => object [("Channel", int c)]
  | custom rule index =>
    object [("Custom", object [("rule_index", nat rule), ("action_index", nat index)])]
  | mode m => object [("Mode", nat m)]
  | more => string "More"
  | popMode => string "PopMode"
  | pushMode m => object [("PushMode", nat m)]
  | skip => string "Skip"
  | type t => object [("Type", int t)]
  | pinned offset command =>
    object [("Indexed", object [("offset", nat offset), ("action", command.toJson)])]

/-- Reads a command that may nest through `room` further levels. -/
def ofJsonWithin? : Nat → Json → Option Command
  | _, string "More" => some more
  | _, string "PopMode" => some popMode
  | _, string "Skip" => some skip
  | _ + 1, object [("More", null)] => some more
  | _ + 1, object [("PopMode", null)] => some popMode
  | _ + 1, object [("Skip", null)] => some skip
  | _ + 1, object [("Channel", j)] => (asInt32? j).map channel
  | _ + 1, object [("Mode", j)] => (asNat? j).map mode
  | _ + 1, object [("PushMode", j)] => (asNat? j).map pushMode
  | _ + 1, object [("Type", j)] => (asInt32? j).map type
  | _ + 2, object [("Custom", j)] => do
    match ← asRecord? ["rule_index", "action_index"] j with
    | [rule, index] => pure (custom (← required asNat? rule) (← required asNat? index))
    | _ => none
  | room + 2, object [("Indexed", j)] => do
    match ← asRecord? ["offset", "action"] j with
    | [offset, command] =>
      pure (pinned (← required asNat? offset) (← required (ofJsonWithin? room) command))
    | _ => none
  | _, _ => none

/-- Reads a command. -/
def ofJson? (j : Json) : Option Command := ofJsonWithin? nestingLimit j

end Command

/-! ## Transitions -/

namespace Transition
open Json

/-- A transition is described by its kind and its parts. -/
def toJson : Transition → Json
  | epsilon t => object [("Epsilon", object [("target", nat t)])]
  | symbol t label => object [("Atom", object [("target", nat t), ("label", int label)])]
  | range t lo hi => object [("Range", object [("target", nat t), ("from", int lo), ("to", int hi)])]
  | set t s => object [("Set", object [("target", nat t), ("set", s.toJson)])]
  | notSet t s => object [("NotSet", object [("target", nat t), ("set", s.toJson)])]
  | wildcard t => object [("Wildcard", object [("target", nat t)])]
  | call t rule level follow =>
    object [("Rule", object [("target", nat t), ("rule_index", nat rule),
      ("precedence", int level), ("follow_state", nat follow)])]
  | ret t => object [("Return", object [("target", nat t)])]
  | predicate t rule index contextual =>
    object [("Predicate", object [("target", nat t), ("rule_index", nat rule),
      ("pred_index", nat index), ("ctx_dependent", bool contextual)])]
  | precedence t level =>
    object [("Precedence", object [("target", nat t), ("precedence", int level)])]
  | action t rule index contextual =>
    object [("Action", object [("target", nat t), ("rule_index", nat rule),
      ("action_index", nat index), ("ctx_dependent", bool contextual)])]

/-- Reads a transition. -/
def ofJson? (j : Json) : Option Transition := do
  let (case, payload) ← asVariant? j
  let parts (names : List String) : Option (List (Option Json)) := payload.bind (asRecord? names)
  match case with
  | "Epsilon" =>
    match ← parts ["target"] with
    | [t] => pure (epsilon (← required asNat? t))
    | _ => none
  | "Atom" =>
    match ← parts ["target", "label"] with
    | [t, label] => pure (symbol (← required asNat? t) (← required asInt32? label))
    | _ => none
  | "Range" =>
    match ← parts ["target", "from", "to"] with
    | [t, lo, hi] =>
      pure (range (← required asNat? t) (← required asInt32? lo) (← required asInt32? hi))
    | _ => none
  | "Set" =>
    match ← parts ["target", "set"] with
    | [t, s] => pure (set (← required asNat? t) (← required IntervalSet.ofJson? s))
    | _ => none
  | "NotSet" =>
    match ← parts ["target", "set"] with
    | [t, s] => pure (notSet (← required asNat? t) (← required IntervalSet.ofJson? s))
    | _ => none
  | "Wildcard" =>
    match ← parts ["target"] with
    | [t] => pure (wildcard (← required asNat? t))
    | _ => none
  | "Rule" =>
    match ← parts ["target", "rule_index", "precedence", "follow_state"] with
    | [t, rule, level, follow] =>
      pure (call (← required asNat? t) (← required asNat? rule) (← required asInt32? level)
        (← required asNat? follow))
    | _ => none
  | "Return" =>
    match ← parts ["target"] with
    | [t] => pure (ret (← required asNat? t))
    | _ => none
  | "Predicate" =>
    match ← parts ["target", "rule_index", "pred_index", "ctx_dependent"] with
    | [t, rule, index, contextual] =>
      pure (predicate (← required asNat? t) (← required asNat? rule) (← required asNat? index)
        (← required asBool? contextual))
    | _ => none
  | "Precedence" =>
    match ← parts ["target", "precedence"] with
    | [t, level] => pure (precedence (← required asNat? t) (← required asInt32? level))
    | _ => none
  | "Action" =>
    match ← parts ["target", "rule_index", "action_index", "ctx_dependent"] with
    | [t, rule, index, contextual] =>
      pure (action (← required asNat? t) (← required asNat? rule) (← required asNat? index)
        (← required asBool? contextual))
    | _ => none
  | _ => none

end Transition

/-! ## States -/

open Json in
/-- Reads a kind of state. -/
def StateKind.ofJson? (j : Json) : Option StateKind := do
  let (case, payload) ← asVariant? j
  if isBare payload then StateKind.ofName? case else none

namespace State
open Json

/-- A state is described by its parts. -/
def toJson (s : State) : Json :=
  object [("id", nat s.id), ("rule_index", nat s.rule), ("kind", string s.kind.name),
    ("transitions", list Transition.toJson s.transitions), ("epsilon_only", bool s.freeOnly),
    ("decision", ofOption nat s.decision), ("non_greedy", bool s.nonGreedy)]

/-- Reads a state.  It is greedy and makes no decision unless the description says so. -/
def ofJson? (j : Json) : Option State := do
  match ← asRecord? ["id", "rule_index", "kind", "transitions", "epsilon_only", "decision",
      "non_greedy"] j with
  | [id, rule, kind, transitions, freeOnly, decision, nonGreedy] =>
    pure
      { id := ← required asNat? id
        rule := ← required asNat? rule
        kind := ← required StateKind.ofJson? kind
        transitions := ← required (asList? Transition.ofJson?) transitions
        freeOnly := ← optional false asBool? freeOnly
        decision := ← optional none (asNullable? asNat?) decision
        nonGreedy := ← optional false asBool? nonGreedy }
  | _ => none

end State

/-! ## Networks -/

open Json in
/-- Reads a kind of network. -/
def NetworkKind.ofJson? (j : Json) : Option NetworkKind := do
  let (case, payload) ← asVariant? j
  match case, isBare payload with
  | "Lexer", true => pure lexer
  | "Parser", true => pure parser
  | _, _ => none

namespace Network
open Json

/-- A network is described by its tables. -/
def toJson (n : Network) : Json :=
  object [("kind", string n.kind.name), ("max_token_type", int n.maxSymbol),
    ("states", list State.toJson n.states.toList),
    ("decision_to_state", list nat n.decisions.toList),
    ("rule_to_start", list nat n.ruleStarts.toList),
    ("rule_to_stop", list nat n.ruleStops.toList),
    ("rule_names", list string n.ruleNames.toList),
    ("rule_to_token_type", list int n.tokenTypes.toList),
    ("mode_to_start", list nat n.modeStarts.toList),
    ("mode_names", list string n.modeNames.toList),
    ("lexer_actions", list Command.toJson n.commands.toList)]

/-- Reads a network without linking it.  The commands lie within the network and their list, so
they may nest through two levels less. -/
def ofJson? (j : Json) : Option Network := do
  match ← asRecord? ["kind", "max_token_type", "states", "decision_to_state", "rule_to_start",
      "rule_to_stop", "rule_names", "rule_to_token_type", "mode_to_start", "mode_names",
      "lexer_actions"] j with
  | [kind, maxSymbol, states, decisions, starts, stops, names, types, modeStarts, modeNames,
      commands] =>
    pure
      { kind := ← required NetworkKind.ofJson? kind
        maxSymbol := ← required asInt32? maxSymbol
        states := ← required (asArray? State.ofJson?) states
        decisions := ← required (asArray? asNat?) decisions
        ruleStarts := ← required (asArray? asNat?) starts
        ruleStops := ← required (asArray? asNat?) stops
        ruleNames := ← optional #[] (asArray? asString?) names
        tokenTypes := ← optional #[] (asArray? asInt32?) types
        modeStarts := ← optional #[] (asArray? asNat?) modeStarts
        modeNames := ← optional #[] (asArray? asString?) modeNames
        commands := ← optional #[] (asArray? (Command.ofJsonWithin? (nestingLimit - 2))) commands }
  | _ => none

/-- The description of a network as text. -/
def toText (n : Network) : String := n.toJson.toText

/-- Reads a description and links the network. -/
def ofText (text : String) : Except RecognitionError Network :=
  match (Json.ofText? text).bind ofJson? with
  | some n => n.link
  | none => .error (.invalidNetwork .undecodable)

end Network

end AdaptiveLL
