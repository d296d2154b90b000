import AdaptiveLL.Grammar.Basic
import AdaptiveLL.Network.Link

/-!
# Laying out a grammar

`Grammar.layout` turns a grammar into a network.  Every element becomes a stretch of states with an
entry and an exit.  A block of alternatives parts at its start and meets at its end; a repetition
of any number decides in front of its body, one of one or more behind it.  Where a decision is
not greedy, the way out comes first.

States are numbered in the order in which they are made: the starts of the modes, the ends of
the rules, then the bodies rule by rule.  The finished network is linked.
-/

namespace AdaptiveLL

/-- The entry and the exit of a stretch of states. -/
structure Stretch where
  /-- Where it is entered. -/
  entry : Nat
  /-- Where it is left. -/
  exit : Nat
deriving DecidableEq, Repr

/-- Work on a network that is being laid out. -/
abbrev Layout (α : Type) := StateT Network (Except RecognitionError) α

namespace Layout

/-- Makes a state of a rule. -/
def newState (rule : Nat) (kind : StateKind) : Layout Nat :=
  modifyGet fun n =>
    (n.states.size, { n with states := n.states.push { id := n.states.size, rule, kind } })

/-- Changes a state. -/
def changeState (id : Nat) (f : State → State) : Layout Unit :=
  modify fun n => { n with states := n.states.modify id f }

/-- Makes a state the next decision. -/
def makeDecision (id : Nat) : Layout Unit := do
  let decision := (← get).decisions.size
  modify fun n => { n with decisions := n.decisions.push id }
  changeState id fun s => { s with decision := some decision }

/-- Makes a decision prefer to leave. -/
def preferLeaving (id : Nat) : Layout Unit := changeState id fun s => { s with nonGreedy := true }

/-- Adds a transition to a state. -/
def connect (id : Nat) (t : Transition) : Layout Unit := changeState id (·.addTransition t)

/-- Adds a free transition between two states. -/
def join (source target : Nat) : Layout Unit := connect source (.epsilon target)

/-- Two states joined by a transition. -/
def single (rule : Nat) (t : Nat → Transition) : Layout Stretch := do
  let a ← newState rule .basic
  let b ← newState rule .basic
  connect a (t b)
  pure ⟨a, b⟩

/-- The number of a command in the network's list, where it is added if it is new. -/
def commandIndex (c : Command) : Layout Nat :=
  modifyGet fun n =>
    match n.commands.findIdx? (· = c) with
    | some i => (i, n)
    | none => (n.commands.size, { n with commands := n.commands.push c })

/-- Two states joined by an action. -/
def actionStretch (rule index : Nat) : Layout Stretch :=
  single rule fun target => .action target rule index false

/-- Leads from one state into each stretch, and from each to another state. -/
def spread (start stop : Nat) : List Stretch → Layout Unit
  | [] => pure ()
  | s :: rest => do
    join start s.entry
    join s.exit stop
    spread start stop rest

/-- Leads from each stretch to the next. -/
def chain : List Stretch → Layout Unit
  | a :: b :: rest => do
    join a.exit b.entry
    chain (b :: rest)
  | _ => pure ()

/-- The stretch from the entry of the first to the exit of the last; two states without anything
between them if there is none. -/
def sequence (rule : Nat) : List Stretch → Layout Stretch
  | [] => single rule .epsilon
  | s :: rest => do
    chain (s :: rest)
    pure ⟨s.entry, ((s :: rest).getLast (by simp)).exit⟩

/-- The alternatives of an element that is repeated or left out: its own if it is a choice. -/
def alternativeCount : Element → Nat
  | .alt items => items.length
  | _ => 1

mutual

/-- Lays out an element of a rule. -/
def element (rule : Nat) : Element → Layout Stretch
  | .symbol label => single rule fun target => .symbol target label
  | .range lo hi => single rule fun target => .range target lo hi
  | .set s => single rule fun target => .set target s
  | .notSet s => single rule fun target => .notSet target s
  | .wildcard => single rule .wildcard
  | .call name precedence => do
    let n ← get
    match n.rule? name with
    | some callee =>
      single rule fun follow =>
        .call (n.ruleStarts[callee]?.getD n.states.size) callee precedence follow
    | none => throw (.invalidNetwork (.undefinedRule name))
  | .seq items => do
    let stretches ← elements rule items
    sequence rule stretches
  | .alt [item] => element rule item
  | .alt items => do
    let start ← newState rule .blockStart
    if 1 < items.length then makeDecision start
    let stop ← newState rule .blockEnd
    let stretches ← elements rule items
    spread start stop stretches
    pure ⟨start, stop⟩
  | .optional body greedy => do
    let start ← newState rule .blockStart
    makeDecision start
    let stop ← newState rule .blockEnd
    let stretches ← match body with
      | .alt items => elements rule items
      | e => do pure [← element rule e]
    if !greedy then
      join start stop
      preferLeaving start
    spread start stop stretches
    if greedy then join start stop
    pure ⟨start, stop⟩
  | .star body greedy => do
    let entry ← newState rule .starLoopEntry
    makeDecision entry
    let start ← newState rule .starBlockStart
    if 1 < alternativeCount body then makeDecision start
    let stop ← newState rule .blockEnd
    let stretches ← match body with
      | .alt items => elements rule items
      | e => do pure [← element rule e]
    spread start stop stretches
    let back ← newState rule .starLoopBack
    let leave ← newState rule .loopEnd
    join stop back
    join back entry
    if greedy then
      join entry start
      join entry leave
    else
      join entry leave
      join entry start
      preferLeaving entry
    pure ⟨entry, leave⟩
  | .plus body greedy => do
    let start ← newState rule .plusBlockStart
    if 1 < alternativeCount body then makeDecision start
    let stop ← newState rule .blockEnd
    let stretches ← match body with
      | .alt items => elements rule items
      | e => do pure [← element rule e]
    spread start stop stretches
    let back ← newState rule .plusLoopBack
    makeDecision back
    let leave ← newState rule .loopEnd
    join stop back
    if greedy then
      join back start
      join back leave
    else
      join back leave
      join back start
      preferLeaving back
    pure ⟨start, leave⟩
  | .predicate index contextual =>
    single rule fun target => .predicate target rule index contextual
  | .precedence level => single rule fun target => .precedence target level
  | .action index => do
    match (← get).kind with
    | .lexer => do
      let i ← commandIndex (.custom rule index)
      actionStretch rule i
    | .parser => actionStretch rule index
  | .command c => do
    match (← get).kind with
    | .lexer => do
      let i ← commandIndex c
      actionStretch rule i
    | .parser => throw (.invalidNetwork (.commandInParser c.toText))

/-- Lays out elements of a rule one after another, without connecting them. -/
def elements (rule : Nat) : List Element → Layout (List Stretch)
  | [] => pure []
  | e :: rest => do
    let s ← element rule e
    let stretches ← elements rule rest
    pure (s :: stretches)

end

/-- Makes the start of a mode. -/
def addMode (name : String) : Layout Unit := do
  let start ← newState 0 .tokensStart
  makeDecision start
  modify fun n =>
    { n with modeStarts := n.modeStarts.push start, modeNames := n.modeNames.push name }

/-- Makes the ends of a rule. -/
def addRule (index : Nat) (r : Rule) : Layout Unit := do
  if ((← get).rule? r.name).isSome then throw (.invalidNetwork (.duplicateRule r.name))
  let start ← newState index .ruleStart
  let stop ← newState index .ruleStop
  modify fun n =>
    { n with
      ruleStarts := n.ruleStarts.push start
      ruleStops := n.ruleStops.push stop
      ruleNames := n.ruleNames.push r.name
      tokenTypes := if n.kind = .lexer then n.tokenTypes.push r.tokenType else n.tokenTypes }

/-- Lays out the body of a rule between its ends. -/
def addBody (index : Nat) (r : Rule) : Layout Unit := do
  let s ← element index r.body
  let n ← get
  join (n.ruleStarts[index]?.getD n.states.size) s.entry
  join s.exit (n.ruleStops[index]?.getD n.states.size)

/-- Leads from the start of a mode to a rule, unless it is a fragment. -/
def addToMode (index : Nat) (r : Rule) : Layout Unit := do
  if !r.isFragment then
    let n ← get
    join (n.modeStarts[r.mode]?.getD n.states.size) (n.ruleStarts[index]?.getD n.states.size)

/-- Does something for every rule in order. -/
def forRules (act : Nat → Rule → Layout Unit) : Nat → List Rule → Layout Unit
  | _, [] => pure ()
  | index, r :: rest => do
    act index r
    forRules act (index + 1) rest

/-- Lays out a grammar on an empty network. -/
def grammar (g : Grammar) : Layout Unit := do
  if g.kind = .lexer then g.modes.forM addMode
  forRules addRule 0 g.rules
  forRules addBody 0 g.rules
  if g.kind = .lexer then forRules addToMode 0 g.rules

end Layout

/-- The linked network of a grammar. -/
def Grammar.layout (g : Grammar) : Except RecognitionError Network := do
  let (_, n) ← (Layout.grammar g).run { kind := g.kind, maxSymbol := g.maxSymbol }
  n.link

end AdaptiveLL
