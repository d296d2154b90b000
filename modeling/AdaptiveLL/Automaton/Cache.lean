import AdaptiveLL.Automaton.Basic
import AdaptiveLL.Network.Basic

/-!
# Caches

The automata of a network's decisions, with the stack graph that their configurations refer to.
A cache outlives the recogniser that filled it and can be handed to another one for the same
network.
-/

namespace AdaptiveLL

/-- The automata of a network and the stacks they refer to. -/
structure Cache where
  /-- The stacks. -/
  graph : StackGraph := StackGraph.empty
  /-- The automaton of each decision. -/
  automata : Array Automaton
deriving Inhabited

namespace Cache

/-- The automata of a network before any prediction. -/
def ofNetwork (n : Network) : Cache where
  automata := n.decisions.mapIdx fun decision netState => { decision, netState }

/-- Whether the automata belong to the decisions of a network. -/
def fits (c : Cache) (n : Network) : Bool :=
  c.automata.map Automaton.netState = n.decisions

/-- The automaton of a decision. -/
def automaton (c : Cache) (decision : Nat) : Automaton :=
  c.automata[decision]?.getD { decision, netState := 0 }

/-- Changes the automaton of a decision. -/
def change (c : Cache) (decision : Nat) (f : Automaton → Automaton) : Cache :=
  { c with automata := c.automata.modify decision f }

/-- The state of a decision's automaton for given configurations and results, which is added if
there is none with these configurations. -/
def addState (c : Cache) (decision : Nat) (s : AutomatonState) : Target × Cache :=
  let (t, a) := (c.automaton decision).add s
  (t, c.change decision fun _ => a)

/-- The number of states of all automata. -/
def size (c : Cache) : Nat := c.automata.foldl (fun n a => n + a.size) 0

/-- Drops the states of one decision; or, without one, those of all and the stacks too. -/
def clear (c : Cache) : Option Nat → Cache
  | some decision => c.change decision Automaton.clear
  | none => { graph := StackGraph.empty, automata := c.automata.map Automaton.clear }

end Cache

end AdaptiveLL
