import AdaptiveLL.Drawing.Text
import AdaptiveLL.Network.Basic

/-!
# Drawings of networks

A network as a graph for two drawing tools.  A node stands for a state, an arrow for a transition;
arrows of free transitions are dashed or dotted.
-/

namespace AdaptiveLL
namespace Network

/-- The name of a state's node. -/
def node (id : Nat) : String := "s" ++ toString id

/-- The shape of a state's node: the ends of rules and the starts of modes stand out. -/
def shape : StateKind → String
  | .ruleStart | .ruleStop => "doublecircle"
  | .tokensStart => "box"
  | _ => "circle"

/-- The label of a state's node: its number, and the number of its decision on a second line. -/
def nodeLabel (s : State) : String :=
  toString s.id
    ++ (match s.decision with
        | some d => "\\nd=" ++ toString d
        | none => "")

/-- A transition as an arrow of a directed graph. -/
def dotArrow (s : State) (t : Transition) : String :=
  "  " ++ node s.id ++ " -> " ++ node t.target ++ " [label=" ++ Drawing.quoted t.toText
    ++ (if t.isFree then ", style=dashed]" else "]")

/-- A state and its transitions as a node of a directed graph and its arrows. -/
def dotState (n : Network) (s : State) : List String :=
  ("  " ++ node s.id ++ " [shape=" ++ shape s.kind ++ ", label=\"" ++ nodeLabel s ++ "\", tooltip="
      ++ Drawing.quoted (n.describe s.id) ++ "]")
    :: s.transitions.map (dotArrow s)

/-- The names of the rules, each as a label outside the node of its rule's start. -/
def dotNames (n : Network) : List String :=
  (n.ruleStarts.toList.zip n.ruleNames.toList).map fun (start, name) =>
    "  " ++ node start ++ " [xlabel=" ++ Drawing.quoted name ++ "]"

/-- A network in the language of directed graphs. -/
def toDot (n : Network) : String :=
  Drawing.lines
    (["digraph ATN \x7b", "  rankdir=LR;", "  node [shape=circle];"]
      ++ n.states.toList.flatMap n.dotState ++ n.dotNames ++ ["\x7d"])

/-- A transition's text with single quotes for double ones. -/
def plainText (t : Transition) : String :=
  String.ofList (t.toText.toList.map fun c => if c = '"' then '\'' else c)

/-- A transition as an arrow of a flow chart. -/
def chartArrow (s : State) (t : Transition) : String :=
  "  " ++ node s.id ++ " " ++ (if t.isFree then "-.->" else "-->") ++ "|\"" ++ plainText t
    ++ "\"| " ++ node t.target

/-- A state and its transitions as a node of a flow chart and its arrows. -/
def chartState (s : State) : List String :=
  ("  " ++ node s.id ++ "[\"" ++ toString s.id ++ ":" ++ s.kind.name ++ "\"]")
    :: s.transitions.map (chartArrow s)

/-- A network in the language of flow charts. -/
def toFlowChart (n : Network) : String :=
  Drawing.lines ("graph LR" :: n.states.toList.flatMap chartState)

end Network
end AdaptiveLL
