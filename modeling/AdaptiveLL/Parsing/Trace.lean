import AdaptiveLL.Json.Shape

/-!
# Traces

What a parser did: rules begun and ended, decisions made, tokens matched, in order.  Every event
carries the index of the next token at that time.  A trace has a JSON description, to write
(`toJson`) and to read (`ofJson?`).
-/

namespace AdaptiveLL

/-- Something that a parser did. -/
inductive TraceEvent where
  /-- A rule began. -/
  | enterRule (rule index : Nat)
  /-- A rule ended. -/
  | exitRule (rule index : Nat)
  /-- An alternative was chosen. -/
  | decision (decision state alt index : Nat)
  /-- A token was matched. -/
  | token (type : Int) (index : Nat)
deriving DecidableEq, Repr

namespace TraceEvent
open Json

/-- An event is described by its kind and its parts. -/
def toJson : TraceEvent → Json
  | enterRule rule index =>
    object [("EnterRule", object [("rule_index", nat rule), ("token_index", nat index)])]
  | exitRule rule index =>
    object [("ExitRule", object [("rule_index", nat rule), ("token_index", nat index)])]
  | decision d state alt index =>
    object [("Decision", object [("decision", nat d), ("state", nat state), ("alt", nat alt),
      ("token_index", nat index)])]
  | token type index =>
    object [("Match", object [("token_type", int type), ("token_index", nat index)])]

/-- Reads an event. -/
def ofJson? (j : Json) : Option TraceEvent := do
  let (case, payload) ← asVariant? j
  let parts (names : List String) : Option (List (Option Json)) := payload.bind (asRecord? names)
  match case with
  | "EnterRule" =>
    match ← parts ["rule_index", "token_index"] with
    | [rule, index] => pure (enterRule (← required asNat? rule) (← required asNat? index))
    | _ => none
  | "ExitRule" =>
    match ← parts ["rule_index", "token_index"] with
    | [rule, index] => pure (exitRule (← required asNat? rule) (← required asNat? index))
    | _ => none
  | "Decision" =>
    match ← parts ["decision", "state", "alt", "token_index"] with
    | [d, state, alt, index] =>
      pure (decision (← required asNat? d) (← required asNat? state) (← required asNat? alt)
        (← required asNat? index))
    | _ => none
  | "Match" =>
    match ← parts ["token_type", "token_index"] with
    | [type, index] => pure (token (← required asInt32? type) (← required asNat? index))
    | _ => none
  | _ => none

end TraceEvent

/-- The events of a run, in order. -/
structure Trace where
  /-- The events. -/
  events : List TraceEvent
deriving DecidableEq, Repr

namespace Trace
open Json

/-- The decisions made and the alternatives chosen, in order. -/
def decisions (t : Trace) : List (Nat × Nat) :=
  t.events.filterMap fun
    | .decision d _ alt _ => some (d, alt)
    | _ => none

/-- The types of the tokens matched, in order. -/
def matched (t : Trace) : List Int :=
  t.events.filterMap fun
    | .token type _ => some type
    | _ => none

/-- A trace is described by its events. -/
def toJson (t : Trace) : Json := object [("events", list TraceEvent.toJson t.events)]

/-- Reads a trace. -/
def ofJson? (j : Json) : Option Trace := do
  match ← asRecord? ["events"] j with
  | [events] => pure ⟨← required (asList? TraceEvent.ofJson?) events⟩
  | _ => none

end Trace
end AdaptiveLL
