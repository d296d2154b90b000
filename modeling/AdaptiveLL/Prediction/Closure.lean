import Std.Data.HashSet
import AdaptiveLL.Conflict
import AdaptiveLL.DepthFirst
import AdaptiveLL.Workspace

/-!
# Closing configurations of a parser

The closure of a configuration follows every free transition as far as it leads, and collects the
configurations from which something must be consumed, and those that are done.

A call pushes the state where the caller continues.  At the end of a rule the stacks are popped,
frame by frame.  Where a stack ends, the rule that the closure began in, or one around it, is
done: if the caller is known, the configuration is finished and kept; if not, it goes on along
the return transitions of the rule, which lead to everyone who might have called it.

Guards are collected up to the first action (`collecting`), and those that depend on the rule's
caller only while the path is still in the rule it began in (`depth` zero).  Without the caller's
stack a guard becomes part of the configuration.  With it, the guard is decided on the spot, if
there is someone to ask (`Surroundings.ask`).
-/

namespace AdaptiveLL

/-- What a closure depends on besides configurations. -/
structure Surroundings (σ : Type) where
  /-- The network. -/
  network : Network
  /-- Whether the stacks are those of a known caller. -/
  fullContext : Bool
  /-- Whether consuming the end of the input is free. -/
  endIsFree : Bool := false
  /-- How a guard is decided; none if nobody is to be asked. -/
  ask : Option (Guard → σ → Bool × σ) := none
  /-- How deep a closure may nest. -/
  maxDepth : Nat

/-- What makes a configuration worth following: a second one that agrees in this is not. -/
structure Visit where
  /-- The state. -/
  state : Nat
  /-- The alternative. -/
  alt : Nat
  /-- The stacks. -/
  stack : StackRef
  /-- The guard. -/
  guard : Guard
deriving DecidableEq, Hashable

/-- What a configuration's visit is known by. -/
def Config.visit (c : Config) : Visit := ⟨c.state, c.alt, c.stack, c.guard⟩

namespace Closure

/-- A closure under way. -/
structure Progress (σ : Type) where
  /-- The stacks and the author's state. -/
  work : Workspace σ
  /-- What was collected. -/
  out : ConfigSet
  /-- What was visited. -/
  visited : Std.HashSet Visit

/-- An item of the walk.  Each carries the depth of calls below the rule that the closure began in,
negative past it, and whether guards are collected. -/
inductive Item where
  /-- A configuration reached. -/
  | arrive (c : Config) (depth : Int) (collecting : Bool)
  /-- A frame to pop off the stacks of a configuration at the end of a rule. -/
  | pop (c : Config) (depth : Int) (collecting : Bool) (frame : Frame)
  /-- A transition to follow from a configuration. -/
  | follow (c : Config) (depth : Int) (collecting : Bool) (t : Transition)

variable {σ : Type}

/-- Collects a configuration. -/
def collect (c : Config) : Run (Progress σ) Unit :=
  modify fun ⟨⟨graph, author, closures⟩, out, visited⟩ =>
    let (out, graph) := out.insert c graph
    ⟨⟨graph, author, closures⟩, out, visited⟩

/-- Notes that a path returned past the rule it began in. -/
def noteDip : Run (Progress σ) Unit :=
  modify fun ⟨work, out, visited⟩ => ⟨work, { out with dipsOutside := true }, visited⟩

/-- Pushes a state on the stacks of a node. -/
def push (below : StackRef) (state : Nat) : Run (Progress σ) StackRef :=
  modifyGet fun ⟨⟨graph, author, closures⟩, out, visited⟩ =>
    let (r, graph) := graph.push below (some state)
    (r, ⟨⟨graph, author, closures⟩, out, visited⟩)

/-- Marks a configuration as visited, and says whether it is the first of its kind. -/
def markVisited (c : Config) : Run (Progress σ) Bool :=
  modifyGet fun ⟨work, out, visited⟩ =>
    if visited.contains c.visit then (false, ⟨work, out, visited⟩)
    else (true, ⟨work, out, visited.insert c.visit⟩)

/-- Decides a guard. -/
def decideGuard (ask : Guard → σ → Bool × σ) (g : Guard) : Run (Progress σ) Bool :=
  modifyGet fun ⟨⟨graph, author, closures⟩, out, visited⟩ =>
    let (holds, author) := ask g author
    (holds, ⟨⟨graph, author, closures⟩, out, visited⟩)

/-- A configuration from which to go on: it is collected if something can be consumed there, and
its transitions are to be followed, unless that was done before. -/
def enter (env : Surroundings σ) (c : Config) (depth : Int) (collecting : Bool) :
    Run (Progress σ) (Option (List Item)) := do
  if ← markVisited c then
    let s := env.network.state c.state
    if !s.freeOnly then collect c
    pure (some (s.transitions.map (Item.follow c depth collecting)))
  else pure none

/-- A configuration that was reached.  At the end of a rule its stacks are popped; one without
stacks is finished if the caller is known. -/
def arrive (env : Surroundings σ) (c : Config) (depth : Int) (collecting : Bool) :
    Run (Progress σ) (Option (List Item)) := do
  if env.network.isStop c.state && !c.stack.isBottom then
    let g := (← get).work.graph
    pure (some ((g.frames c.stack).map (Item.pop c depth collecting)))
  else if env.network.isStop c.state && env.fullContext then
    collect c
    pure none
  else enter env c depth collecting

/-- A frame of a configuration at the end of a rule. -/
def pop (env : Surroundings σ) (c : Config) (depth : Int) (collecting : Bool) (frame : Frame) :
    Run (Progress σ) (Option (List Item)) := do
  match frame.returnTo with
  | some state => arrive env (c.returnTo state frame.parent) (depth - 1) collecting
  | none =>
    if env.fullContext then
      collect (c.returnTo c.state StackRef.bottom)
      pure none
    else enter env c depth collecting

/-- Where a guarded transition leads, if it does. -/
def passGuard (env : Surroundings σ) (c : Config) (target : Nat) (g : Guard) (collecting : Bool) :
    Run (Progress σ) (Option Config) := do
  if !collecting then pure (some (c.moveTo target))
  else if !env.fullContext then
    pure (some { c.moveTo target with guard := Guard.both c.guard g })
  else
    match env.ask with
    | none => pure (some (c.moveTo target))
    | some ask => do
      if ← decideGuard ask g then pure (some (c.moveTo target)) else pure none

/-- Where a transition leads without anything being consumed, if it does. -/
def target? (env : Surroundings σ) (c : Config) (inRule collecting : Bool) (t : Transition) :
    Run (Progress σ) (Option Config) := do
  match t with
  | .call target _ _ follow => do
    let stack ← push c.stack follow
    pure (some (c.returnTo target stack))
  | .precedence target level =>
    passGuard env c target (.precedence level) (collecting && inRule)
  | .predicate target rule index contextual =>
    passGuard env c target (.predicate rule index contextual)
      (collecting && (!contextual || inRule))
  | .action target _ _ _ | .epsilon target | .ret target => pure (some (c.moveTo target))
  | .symbol target _ | .range target _ _ | .set target _ =>
    if env.endIsFree && t.consumes 0 1 endOfInput then pure (some (c.moveTo target))
    else pure none
  | .notSet .. | .wildcard _ => pure none

/-- Whether a transition is an action. -/
def isAction : Transition → Bool
  | .action .. => true
  | _ => false

/-- Whether a transition is a call. -/
def isCall : Transition → Bool
  | .call .. => true
  | _ => false

/-- A transition of a configuration.  Following one from the end of a rule goes past the rule. -/
def follow (env : Surroundings σ) (c : Config) (depth : Int) (collecting : Bool)
    (t : Transition) : Run (Progress σ) (Option (List Item)) := do
  let collecting := collecting && !isAction t
  match ← target? env c (depth = 0) collecting t with
  | none => pure none
  | some d =>
    if env.network.isStop c.state then
      noteDip
      arrive env { d with outerReach := d.outerReach + 1 } (depth - 1) collecting
    else if isCall t && decide (0 ≤ depth) then arrive env d (depth + 1) collecting
    else arrive env d depth collecting

/-- Visits an item. -/
def visit (env : Surroundings σ) : Item → Run (Progress σ) (Option (List Item))
  | .arrive c depth collecting => arrive env c depth collecting
  | .pop c depth collecting frame => pop env c depth collecting frame
  | .follow c depth collecting t => follow env c depth collecting t

/-- Closes a configuration. -/
def close (env : Surroundings σ) (collecting : Bool) (c : Config) : Run (Progress σ) Unit := do
  modify fun p => { p with work := { p.work with closures := p.work.closures + 1 } }
  DepthFirst.walk (visit env) (.closureDepthExceeded (env.maxDepth + 1) env.maxDepth) env.maxDepth
    (.arrive c 0 collecting)

/-- Closes configurations one after another into one set. -/
def closeAll (env : Surroundings σ) (collecting : Bool) (cs : List Config) :
    Run (Workspace σ) ConfigSet := fun work =>
  let begin : Progress σ := ⟨work, ConfigSet.empty env.fullContext, ∅⟩
  match (cs.forM (close env collecting)) begin with
  | (.ok _, p) => (.ok p.out, p.work)
  | (.error e, p) => (.error e, p.work)

end Closure

/-! ## Starting and consuming -/

namespace Surroundings

variable {σ : Type} (env : Surroundings σ)

/-- The configurations with which the alternatives of a state begin, over a node's stacks. -/
def firstConfigs (state : Nat) (stack : StackRef) : List Config :=
  (env.network.state state).transitions.mapIdx fun i t => { state := t.target, alt := i + 1, stack }

/-- The closed configurations with which the alternatives of a state begin.  The caller's stack
counts only if it is taken to be known. -/
def startConfigs (state : Nat) (outer : List Invocation) : Run (Workspace σ) ConfigSet := do
  let stack ←
    if env.fullContext then do
      let made ← modifyGet fun ⟨graph, author, closures⟩ =>
        let (made, graph) := graph.pushInvocations env.network outer
        (made, ⟨graph, author, closures⟩)
      ExceptT.mk (pure made)
    else pure StackRef.bottom
  Closure.closeAll env true (env.firstConfigs state stack)

/-- The configurations reached by consuming `x`, in order. -/
def moves (x : Symbol) (configs : ConfigSet) : List Config :=
  configs.toList.flatMap fun c =>
    let s := env.network.state c.state
    if s.isStop then []
    else
      (s.transitions.filter (Transition.consumes env.network.minSymbol env.network.maxSymbol x)).map
        fun t => c.moveTo t.target

/-- The configurations that stay when `x` is consumed, because they are at the end of a rule: all
of them if the caller is known, and otherwise only at the end of the input. -/
def staying (x : Symbol) (configs : ConfigSet) : List Config :=
  if env.fullContext || x = endOfInput then
    configs.toList.filter fun c => env.network.isStop c.state
  else []

/-- Adds configurations to a set. -/
def insertAll (s : ConfigSet) (cs : List Config) : Run (Workspace σ) ConfigSet :=
  modifyGet fun ⟨graph, author, closures⟩ =>
    let (s, graph) := s.insertAll cs graph
    (s, ⟨graph, author, closures⟩)

/-- The configurations at the end of a rule. -/
def onlyStops (s : ConfigSet) : Run (Workspace σ) ConfigSet :=
  if s.allStop env.network then pure s
  else insertAll (ConfigSet.empty s.fullContext)
    (s.toList.filter fun c => env.network.isStop c.state)

/-- Whether configurations that were moved over `x` need not be closed, because nothing more will be
read: one alternative is left, and no configuration stays. -/
def isSettled (x : Symbol) (stay : List Config) (moved : ConfigSet) : Bool :=
  stay.isEmpty && x ≠ endOfInput && (moved.size = 1 || moved.findUniqueAlt.isSome)

/-- The closure of the configurations that were moved over `x`. -/
def closeMoved (x : Symbol) (moved : ConfigSet) : Run (Workspace σ) ConfigSet :=
  Closure.closeAll { env with endIsFree := x = endOfInput } false moved.toList

/-- After the end of the input only the ends of rules count. -/
def afterEnd (x : Symbol) (reached : ConfigSet) : Run (Workspace σ) ConfigSet :=
  if x = endOfInput then env.onlyStops reached else pure reached

/-- Adds the configurations that stay, unless the caller is known and a rule ended in another way. -/
def keep (stay : List Config) (reached : ConfigSet) : Run (Workspace σ) ConfigSet :=
  if !stay.isEmpty && (!env.fullContext || !reached.hasStop env.network) then
    insertAll reached stay
  else pure reached

/-- What is left of closed configurations that were moved over `x`, with those that stay; none if
there are none. -/
def finish (x : Symbol) (stay : List Config) (closed : ConfigSet) :
    Run (Workspace σ) (Option ConfigSet) := do
  let ended ← env.afterEnd x closed
  let reached ← env.keep stay ended
  pure (if reached.isEmpty then none else some reached)

/-- The closed configurations reached by consuming `x`; none if there are none.  With `settle`, a
set that is left with one alternative is not closed. -/
def reach (settle : Bool) (x : Symbol) (configs : ConfigSet) :
    Run (Workspace σ) (Option ConfigSet) := do
  let moved ← insertAll (ConfigSet.empty env.fullContext) (env.moves x configs)
  let stay := env.staying x configs
  let closed ← if settle && isSettled x stay moved then pure moved else env.closeMoved x moved
  env.finish x stay closed

end Surroundings

end AdaptiveLL
