import Std.Data.HashSet
import AdaptiveLL.Config
import AdaptiveLL.DepthFirst
import AdaptiveLL.Network.Basic
import AdaptiveLL.Workspace

/-!
# Closing configurations of a lexer

The closure of a configuration follows every free transition as far as it leads, and collects the
configurations from which a character can be consumed, and those at the end of a token rule.

The order matters: a configuration that comes earlier is preferred.  Once a token rule was
finished, configurations that went through a decision that prefers to leave are no longer
collected (`Progress.finished`).

Predicates are decided on the spot.  That one was met is noted in the set, since what was
collected then holds only for the place at which it was decided.  Commands are collected in token
rules, not in rules that these call.
-/

namespace AdaptiveLL

/-- What the closure of a lexer's configurations depends on. -/
structure Outlook (σ : Type) where
  /-- The network. -/
  network : Network
  /-- Whether consuming the end of the input is free. -/
  endIsFree : Bool
  /-- How a predicate of a rule is decided. -/
  ask : (rule index : Nat) → σ → Bool × σ
  /-- How deep a closure may nest. -/
  maxDepth : Nat

namespace Outlook

/-- A closure under way. -/
structure Progress (σ : Type) where
  /-- The stacks and the author's state. -/
  work : Workspace σ
  /-- What was collected. -/
  out : ConfigSet
  /-- What was visited. -/
  visited : Std.HashSet Config
  /-- Whether a token rule was finished. -/
  finished : Bool

/-- An item of the walk. -/
inductive Item where
  /-- A configuration reached. -/
  | arrive (c : Config)
  /-- A frame to pop off the stacks of a configuration at the end of a rule. -/
  | pop (c : Config) (frame : Frame)
  /-- A transition to follow from a configuration. -/
  | follow (c : Config) (t : Transition)

variable {σ : Type}

/-- Collects a configuration. -/
def collect (c : Config) : Run (Progress σ) Unit :=
  modify fun ⟨⟨graph, author, closures⟩, out, visited, finished⟩ =>
    let (out, graph) := out.insert c graph
    ⟨⟨graph, author, closures⟩, out, visited, finished⟩

/-- Collects a configuration that has finished a token rule. -/
def finish (c : Config) : Run (Progress σ) Unit := do
  collect c
  modify fun p => { p with finished := true }

/-- Pushes a state on the stacks of a node. -/
def push (below : StackRef) (state : Nat) : Run (Progress σ) StackRef :=
  modifyGet fun ⟨⟨graph, author, closures⟩, out, visited, finished⟩ =>
    let (r, graph) := graph.push below (some state)
    (r, ⟨⟨graph, author, closures⟩, out, visited, finished⟩)

/-- Marks a configuration as visited, and says whether it is the first of its kind. -/
def markVisited (c : Config) : Run (Progress σ) Bool :=
  modifyGet fun ⟨work, out, visited, finished⟩ =>
    if visited.contains c.identity then (false, ⟨work, out, visited, finished⟩)
    else (true, ⟨work, out, visited.insert c.identity, finished⟩)

/-- A state of the network. -/
def lookUp {τ : Type} (n : Network) (id : Nat) : Run τ State :=
  match n.state? id with
  | .ok s => pure s
  | .error e => throw e

/-- The configuration at another state, where it may have to make a decision that prefers to
leave. -/
def moveTo {τ : Type} (n : Network) (c : Config) (target : Nat) : Run τ Config := do
  let s ← lookUp n target
  pure { c.moveTo target with passedLazy := c.passedLazy || (s.nonGreedy && s.kind.isDecision) }

/-- A configuration that was reached.  At the end of a rule its stacks are popped; one with an
empty stack has finished a token rule.  Elsewhere it is collected if a character can be consumed,
and its transitions are followed. -/
def arrive (env : Outlook σ) (c : Config) : Run (Progress σ) (Option (List Item)) := do
  let s ← lookUp env.network c.state
  if s.isStop then
    if c.stack.isBottom then
      finish c
      pure none
    else
      if (← get).work.graph.hasEmptyStack c.stack then finish (c.returnTo c.state StackRef.bottom)
      pure (some (((← get).work.graph.frames c.stack).map (Item.pop c)))
  else if ← markVisited c then
    let wanted := !(← get).finished || !c.passedLazy
    if !s.freeOnly && wanted then collect c
    pure (some (s.transitions.map (Item.follow c)))
  else pure none

/-- A frame of a configuration at the end of a rule. -/
def pop (env : Outlook σ) (c : Config) (frame : Frame) :
    Run (Progress σ) (Option (List Item)) :=
  match frame.returnTo with
  | some state => arrive env (c.returnTo state frame.parent)
  | none => pure none

/-- Decides a predicate, and notes that one was met. -/
def decidePredicate (env : Outlook σ) (rule index : Nat) : Run (Progress σ) Bool :=
  modifyGet fun ⟨⟨graph, author, closures⟩, out, visited, finished⟩ =>
    let (holds, author) := env.ask rule index author
    (holds, ⟨⟨graph, author, closures⟩, { out with hasGuards := true }, visited, finished⟩)

/-- A configuration's commands with one more from the network's list, if it is in a token rule. -/
def withCommand (n : Network) (g : StackGraph) (c : Config) (index : Nat) :
    Option (List Command) :=
  if g.hasEmptyStack c.stack then
    match n.commands[index]? with
    | some command => some (c.commands.getD [] ++ [command])
    | none => c.commands
  else c.commands

/-- Where a transition leads without a character being consumed, if it does. -/
def target? (env : Outlook σ) (c : Config) (t : Transition) :
    Run (Progress σ) (Option Config) := do
  match t with
  | .call target _ _ follow => do
    let stack ← push c.stack follow
    let d ← moveTo env.network c target
    pure (some { d with stack })
  | .predicate target rule index _ => do
    if ← decidePredicate env rule index then some <$> moveTo env.network c target
    else pure none
  | .action target _ index _ => do
    let d ← moveTo env.network c target
    pure (some { d with commands := withCommand env.network (← get).work.graph c index })
  | .epsilon target | .ret target => some <$> moveTo env.network c target
  | .symbol target _ | .range target _ _ | .set target _ =>
    if env.endIsFree && t.consumes minCodePoint maxCodePoint endOfInput then
      some <$> moveTo env.network c target
    else pure none
  | .precedence .. | .notSet .. | .wildcard _ => pure none

/-- A transition of a configuration. -/
def follow (env : Outlook σ) (c : Config) (t : Transition) :
    Run (Progress σ) (Option (List Item)) := do
  match ← target? env c t with
  | some d => arrive env d
  | none => pure none

/-- Visits an item. -/
def visit (env : Outlook σ) : Item → Run (Progress σ) (Option (List Item))
  | .arrive c => arrive env c
  | .pop c frame => pop env c frame
  | .follow c t => follow env c t

/-- Closes a configuration into a set, and says whether its alternative has finished a token rule;
`finished` says whether it had before. -/
def close (env : Outlook σ) (finished : Bool) (out : ConfigSet) (c : Config) :
    Run (Workspace σ) (Bool × ConfigSet) := fun ⟨graph, author, closures⟩ =>
  let begin : Progress σ := ⟨⟨graph, author, closures + 1⟩, out, ∅, finished⟩
  match DepthFirst.walk (visit env) (.closureDepthExceeded (env.maxDepth + 1) env.maxDepth)
      env.maxDepth (.arrive c) begin with
  | (.ok _, p) => (.ok (p.finished, p.out), p.work)
  | (.error e, p) => (.error e, p.work)

/-! ## Starting and consuming -/

/-- Closes the configurations with which alternatives begin, counted from `alt`. -/
def startFrom (env : Outlook σ) (alt : Nat) (out : ConfigSet) :
    List Transition → Run (Workspace σ) ConfigSet
  | [] => pure out
  | t :: rest => do
    let (_, out) ← close env false out { state := t.target, alt, stack := StackRef.bottom }
    startFrom env (alt + 1) out rest

/-- The closed configurations with which the alternatives of a state begin. -/
def startConfigs (env : Outlook σ) (state : Nat) : Run (Workspace σ) ConfigSet := do
  let s ← lookUp env.network state
  startFrom env 1 ConfigSet.emptyOrdered s.transitions

/-- A configuration moved along a transition that consumes the character at a distance from the
start of the token. -/
def cross (env : Outlook σ) (offset : Nat) (c : Config) (t : Transition) :
    Run (Workspace σ) Config := do
  let d ← moveTo env.network c t.target
  pure { d with commands := c.commands.map (Command.pinAll offset) }

/-- Closes what a configuration reaches by transitions that consume a character, up to the first
one by which its alternative finishes a token rule; says whether there was one. -/
def reachFrom (env : Outlook σ) (offset : Nat) (finished : Bool) (c : Config) (out : ConfigSet) :
    List Transition → Run (Workspace σ) (Bool × ConfigSet)
  | [] => pure (false, out)
  | t :: rest => do
    let d ← cross env offset c t
    match ← close env finished out d with
    | (true, out) => pure (true, out)
    | (false, out) => reachFrom env offset finished c out rest

/-- Closes what configurations reach by consuming `x`.  `done` is the alternative that was the
last to finish a token rule: those of its configurations that went through a decision that prefers
to leave are dropped. -/
def reachAll (env : Outlook σ) (offset : Nat) (x : Symbol) (done : Option Nat) (out : ConfigSet) :
    List Config → Run (Workspace σ) ConfigSet
  | [] => pure out
  | c :: rest => do
    let finished := done = some c.alt
    if finished && c.passedLazy then reachAll env offset x done out rest
    else do
      let s ← lookUp env.network c.state
      let (stopped, out) ← reachFrom env offset finished c out
        (s.transitions.filter (Transition.consumes minCodePoint maxCodePoint x))
      reachAll env offset x (if stopped then some c.alt else done) out rest

/-- The closed configurations reached by consuming `x` at a distance from the start of the
token. -/
def reach (env : Outlook σ) (offset : Nat) (x : Symbol) (configs : ConfigSet) :
    Run (Workspace σ) ConfigSet :=
  reachAll env offset x none ConfigSet.emptyOrdered configs.toList

end Outlook
end AdaptiveLL
