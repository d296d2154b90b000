import AdaptiveLL.Drawing.Text
import AdaptiveLL.Network.Basic
import AdaptiveLL.Parsing.Trace

/-!
# Drawings of traces

A trace as text, one line per event, indented by how many rules are running.
-/

namespace AdaptiveLL

/-- What a rule is called in a trace: its name, or its number if it has none. -/
def Network.ruleTitle (n : Network) (rule : Nat) : String :=
  n.ruleNames[rule]?.getD ("rule " ++ toString rule)

namespace Trace

/-- How many rules are running after an event, if `depth` were running before. -/
def depthAfter (depth : Nat) : TraceEvent → Nat
  | .enterRule .. => depth + 1
  | .exitRule .. => depth - 1
  | .decision .. | .token .. => depth

/-- The text of an event. -/
def eventText (n : Network) : TraceEvent → String
  | .enterRule rule index => "-> " ++ n.ruleTitle rule ++ " at " ++ toString index
  | .exitRule rule index => "<- " ++ n.ruleTitle rule ++ " at " ++ toString index
  | .decision d state alt index =>
    "d" ++ toString d ++ " @ s" ++ toString state ++ ": alt " ++ toString alt ++ " at "
      ++ toString index
  | .token type index => "match " ++ toString type ++ " at " ++ toString index

/-- The lines for events.  The two lines of a rule have the indentation outside the rule. -/
def lines (n : Network) (depth : Nat) : List TraceEvent → List String
  | [] => []
  | e :: rest =>
    let after := depthAfter depth e
    (Drawing.spaces (2 * min depth after) ++ eventText n e) :: lines n after rest

/-- A trace as text. -/
def toText (n : Network) (t : Trace) : String := Drawing.lines (lines n 0 t.events)

end Trace
end AdaptiveLL
