import AdaptiveLL.Guard
import AdaptiveLL.StackGraph.Merge
import AdaptiveLL.Command
import AdaptiveLL.Alternatives

/-!
# Configurations

A configuration is one way in which the input read so far can be explained: the state that was
reached, the alternative that was taken, the call stacks under which it holds, and the guard
collected on the way.  A lexer's configuration also carries the commands collected so far and
whether it went through a decision that prefers to leave.

`outerReach` counts how often the path returned past the rule it began in.  It is no part of what
a configuration is: two that differ in nothing else are the same (`Config.identity`).
-/

namespace AdaptiveLL

/-- One way to explain the input read so far. -/
structure Config where
  /-- The state reached. -/
  state : Nat
  /-- The alternative taken. -/
  alt : Nat
  /-- The call stacks. -/
  stack : StackRef
  /-- The guard collected. -/
  guard : Guard := .always
  /-- How often the path returned past the rule it began in. -/
  outerReach : Nat := 0
  /-- The lexer commands collected. -/
  commands : Option (List Command) := none
  /-- Whether the path went through a decision that prefers to leave. -/
  passedLazy : Bool := false
deriving DecidableEq, Hashable, Inhabited

namespace Config

/-- The configuration without its reach. -/
def identity (c : Config) : Config := { c with outerReach := 0 }

/-- Whether two configurations differ in their reach at most. -/
def same (a b : Config) : Bool := a.identity = b.identity

/-- Whether state, alternative and guard agree, so that only the stacks need merging. -/
def mergesWith (a b : Config) : Bool := a.state = b.state && a.alt = b.alt && a.guard = b.guard

/-- The configuration at another state. -/
def moveTo (c : Config) (state : Nat) : Config := { c with state }

/-- The configuration at another state, with other stacks. -/
def returnTo (c : Config) (state : Nat) (stack : StackRef) : Config := { c with state, stack }

/-- Whether there is a guard. -/
def isGuarded (c : Config) : Bool := !c.guard.isAlways

/-- The text of a configuration: state, alternative and node, then guard and reach if any. -/
def toText (c : Config) : String :=
  "(" ++ toString c.state ++ "," ++ toString c.alt ++ "," ++ c.stack.toText
    ++ (if c.isGuarded then "," ++ c.guard.toText else "")
    ++ (if 0 < c.outerReach then ",up=" ++ toString c.outerReach else "")
    ++ ")"

end Config

/-- Configurations in the order in which they were first added, with what is known of them as a
whole.

An ordered set keeps every configuration that differs from those it holds.  Any other set merges
the stacks of configurations that agree in state, alternative and guard.  Once a set is sealed,
its configurations no longer take part in this. -/
structure ConfigSet where
  /-- The configurations. -/
  configs : Array Config := #[]
  /-- How many of them are sealed. -/
  sealed : Nat := 0
  /-- Whether configurations are kept apart unless they are the same. -/
  ordered : Bool := false
  /-- Whether the stacks are those of a known caller. -/
  fullContext : Bool
  /-- Whether a guarded configuration was added. -/
  hasGuards : Bool := false
  /-- Whether some path returned past the rule it began in. -/
  dipsOutside : Bool := false
  /-- The only alternative left, once it was determined. -/
  uniqueAlt : Option Nat := none
  /-- The alternatives in conflict, once they were determined. -/
  conflictingAlts : Option AltSet := none
deriving Inhabited

namespace ConfigSet

/-- A set that merges stacks. -/
def empty (fullContext : Bool) : ConfigSet := { fullContext }

/-- A set that keeps configurations apart and in order. -/
def emptyOrdered : ConfigSet := { fullContext := false, ordered := true }

/-- Whether adding `c` would change the entry `d` instead of making a new one. -/
def joins (s : ConfigSet) (c d : Config) : Bool := if s.ordered then c.same d else c.mergesWith d

/-- The position of the unsealed entry that `c` joins. -/
def entryFor? (s : ConfigSet) (c : Config) : Option Nat :=
  ((s.configs.toList.drop s.sealed).findIdx? (s.joins c)).map (· + s.sealed)

/-- Records what a configuration says about the set as a whole. -/
def noting (s : ConfigSet) (c : Config) : ConfigSet :=
  { s with
    hasGuards := s.hasGuards || c.isGuarded
    dipsOutside := s.dipsOutside || decide (0 < c.outerReach) }

/-- Adds a configuration and says whether it made a new entry. -/
def add (s : ConfigSet) (c : Config) (g : StackGraph) : Bool × ConfigSet × StackGraph :=
  let s := s.noting c
  match s.entryFor? c with
  | none => (true, { s with configs := s.configs.push c }, g)
  | some i =>
    if s.ordered then (false, s, g)
    else
      match s.configs[i]? with
      | none => (false, s, g)
      | some old =>
        let (stack, g) := g.merge old.stack c.stack (!s.fullContext)
        let merged := { old with stack, outerReach := max old.outerReach c.outerReach }
        (false, { s with configs := s.configs.set! i merged }, g)

/-- Adds a configuration. -/
def insert (s : ConfigSet) (c : Config) (g : StackGraph) : ConfigSet × StackGraph := (s.add c g).2

/-- Adds configurations from left to right. -/
def insertAll (s : ConfigSet) (cs : List Config) (g : StackGraph) : ConfigSet × StackGraph :=
  cs.foldl (fun (s, g) c => s.insert c g) (s, g)

/-- Seals the entries, so that later additions leave them alone. -/
def publish (s : ConfigSet) : ConfigSet := { s with sealed := s.configs.size }

/-- The configurations. -/
def toList (s : ConfigSet) : List Config := s.configs.toList

/-- The number of configurations. -/
def size (s : ConfigSet) : Nat := s.configs.size

/-- Whether there is no configuration. -/
def isEmpty (s : ConfigSet) : Bool := s.configs.isEmpty

/-- Whether two lists of configurations are the same, one by one. -/
def sameConfigs (s t : ConfigSet) : Bool :=
  s.toList.map Config.identity = t.toList.map Config.identity

/-- Whether two sets are the same as sets and in what is recorded of them.  Seals and the kind of
set do not count. -/
def same (s t : ConfigSet) : Bool :=
  s.fullContext = t.fullContext && s.hasGuards = t.hasGuards && s.dipsOutside = t.dipsOutside
    && s.uniqueAlt = t.uniqueAlt && s.conflictingAlts = t.conflictingAlts && s.sameConfigs t

/-- The alternatives that occur. -/
def alts (s : ConfigSet) : AltSet := AltSet.ofList (s.toList.map Config.alt)

/-- The only alternative that occurs, if there is just one. -/
def findUniqueAlt (s : ConfigSet) : Option Nat :=
  match s.toList with
  | [] => none
  | c :: cs => if cs.all (·.alt = c.alt) then some c.alt else none

/-- Adds an alternative to the entry with a key, which is appended if it is new. -/
def addToGroup {κ : Type} [DecidableEq κ] (key : κ) (alt : Nat) :
    List (κ × AltSet) → List (κ × AltSet)
  | [] => [(key, AltSet.singleton alt)]
  | (k, alts) :: rest =>
    if k = key then (k, alts.insert alt) :: rest else (k, alts) :: addToGroup key alt rest

/-- The alternatives by a key of their configurations, keys in order of first appearance. -/
def groupAlts {κ : Type} [DecidableEq κ] (key : Config → κ) (s : ConfigSet) : List (κ × AltSet) :=
  s.toList.foldl (fun groups c => addToGroup (key c) c.alt groups) []

/-- The alternatives alive at each place, a place being a state with its stacks. -/
def conflictSubsets (s : ConfigSet) : List AltSet :=
  (s.groupAlts fun c => (c.state, c.stack)).map (·.2)

/-- The alternatives alive at each state. -/
def altsByState (s : ConfigSet) : List (Nat × AltSet) := s.groupAlts Config.state

/-- Every alternative that occurs, gathered place by place. -/
def findConflictingAlts (s : ConfigSet) : AltSet := Conflict.allAlts s.conflictSubsets

/-- Whether some state is reached by one alternative only. -/
def hasStateWithOneAlt (s : ConfigSet) : Bool := s.altsByState.any fun entry => entry.2.size = 1

/-- The text of a set: its configurations in brackets, then what is recorded of it. -/
def toText (s : ConfigSet) : String :=
  "[" ++ ",".intercalate (s.toList.map Config.toText) ++ "]"
    ++ (if s.hasGuards then ",hasSemanticContext" else "")
    ++ (match s.uniqueAlt with
        | some alt => ",uniqueAlt=" ++ toString alt
        | none => "")
    ++ (match s.conflictingAlts with
        | some alts => ",conflictingAlts=" ++ alts.toText
        | none => "")
    ++ (if s.dipsOutside then ",dipsIntoOuterContext" else "")

end ConfigSet

end AdaptiveLL
