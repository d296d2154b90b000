import Std.Data.HashMap
import AdaptiveLL.Automaton.Basic

/-!
# Automata with buckets

To find the state for given configurations, `Automaton.add` looks through all states.  A
`HashedAutomaton` looks only through those whose configurations have the same hash: it keeps the
names of its states in buckets, one for each hash.  Any hash will do that is the same for sets
which count as the same; `ConfigSet.contentHash` is one.  Each state carries its name, so that an
entry of a bucket can be compared with the state it names.

Without buckets and names this is an automaton again (`HashedAutomaton.plain`).
-/

namespace AdaptiveLL

/-- A hash of the configurations, their reach apart, and of some of what is recorded of the set. -/
def ConfigSet.contentHash (s : ConfigSet) : UInt64 :=
  hash (s.toList.map Config.identity, s.fullContext, s.uniqueAlt, s.conflictingAlts.map AltSet.toList)

/-- A state with its name. -/
structure NamedState extends AutomatonState where
  /-- The target that names it. -/
  name : Target
deriving Inhabited

/-- The automaton of a decision, with buckets. -/
structure HashedAutomaton where
  /-- The decision. -/
  decision : Nat
  /-- The decision's state in the network. -/
  netState : Nat
  /-- The state to begin in, once it is known. -/
  start : Option Target := none
  /-- The states. -/
  states : Array NamedState := #[]
  /-- The names of the states by the hash of their configurations. -/
  buckets : Std.HashMap UInt64 (List Target) := ∅

namespace HashedAutomaton

/-- The state that a target names. -/
def state? (m : HashedAutomaton) : Target → Option NamedState
  | .state i => m.states[i]?
  | .error => none

/-- The names of the states with a hash, in the order in which they were added. -/
def bucket (m : HashedAutomaton) (key : UInt64) : List Target := m.buckets.getD key []

/-- The name of the first state in the bucket that has the given configurations. -/
def find? (hash : ConfigSet → UInt64) (m : HashedAutomaton) (s : ConfigSet) : Option Target :=
  (m.bucket (hash s)).find? fun t => (m.state? t).any (·.configs.same s)

/-- The state that comes after all others, with its name. -/
def next (m : HashedAutomaton) (s : AutomatonState) : NamedState :=
  { s with configs := s.configs.publish, name := .state m.states.size }

/-- Puts a state after all others, and its name into the bucket of its hash. -/
def push (hash : ConfigSet → UInt64) (m : HashedAutomaton) (s : AutomatonState) : HashedAutomaton :=
  { m with
    states := m.states.push (m.next s)
    buckets := m.buckets.insert (hash s.configs) (m.bucket (hash s.configs) ++ [(m.next s).name]) }

/-- The state with the same configurations as `s`, which is added if there is none. -/
def add (hash : ConfigSet → UInt64) (m : HashedAutomaton) (s : AutomatonState) :
    Target × HashedAutomaton :=
  match m.find? hash s.configs with
  | some t => (t, m)
  | none => ((m.next s).name, m.push hash s)

/-- Stores an edge of a state. -/
def setEdge (m : HashedAutomaton) (source : Target) (x : Symbol) (t : Target) : HashedAutomaton :=
  match source with
  | .state i =>
    { m with states := m.states.modify i fun e => { e.toAutomatonState.setEdge x t with name := e.name } }
  | .error => m

/-- Says where to begin. -/
def setStart (m : HashedAutomaton) (t : Target) : HashedAutomaton := { m with start := some t }

/-- Drops the states, their buckets and where to begin. -/
def clear (m : HashedAutomaton) : HashedAutomaton := { m with start := none, states := #[], buckets := ∅ }

/-- The automaton without buckets and names. -/
def plain (m : HashedAutomaton) : Automaton where
  decision := m.decision
  netState := m.netState
  start := m.start
  states := m.states.map NamedState.toAutomatonState

end HashedAutomaton
end AdaptiveLL
