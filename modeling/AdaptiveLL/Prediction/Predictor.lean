import AdaptiveLL.Automaton.Cache
import AdaptiveLL.Input.TokenStream
import AdaptiveLL.Prediction.Classify
import AdaptiveLL.Prediction.Closure
import AdaptiveLL.Prediction.Diagnostic

/-!
# Predicting alternatives

`Predictor.predict` chooses the alternative of a decision by looking at the tokens ahead.

It first runs the decision's automaton, which knows nothing of the caller (`runAutomaton`).  Edges
that are missing are worked out and stored (`step`).  The run ends when no configuration is left,
when a state recognises an alternative, or when a state asks for the caller's stack.  In that last
case the tokens are looked at again from the start, with configurations over the caller's stack
(`runFullContext`), until one alternative is left, or the lowest alternative is the same
everywhere, or an ambiguity is certain, or the input has ended without a change.

When the tokens run into an error, an alternative that has already finished the rule of the
decision may still be taken (`fallback`).

A prediction leaves the stream where it was.  The steps of both runs are counted together, and
their number can be limited.
-/

namespace AdaptiveLL

/-- A network with the automata of its decisions, ready to predict. -/
structure Predictor where
  /-- The network. -/
  network : Network
  /-- The automata. -/
  cache : Cache
  /-- The settings. -/
  settings : Settings := {}
  /-- What was counted. -/
  counters : Counters := {}
  /-- Whether somebody listens to reports. -/
  listening : Bool := false
  /-- The reports made while somebody listened, in order. -/
  reports : List Diagnostic := []

/-- A decision to be predicted. -/
structure Question (σ : Type) where
  /-- The author's callbacks. -/
  hooks : ParserHooks σ
  /-- The rules that are being recognised, outermost first. -/
  outer : List Invocation
  /-- The decision. -/
  decision : Nat
  /-- The place in the stream from which to look ahead. -/
  start : Nat

/-- What a prediction changes. -/
structure Session (σ : Type) where
  /-- The predictor. -/
  predictor : Predictor
  /-- The tokens ahead. -/
  stream : TokenStream
  /-- The state of the author's callbacks. -/
  author : σ

namespace Predictor

/-- A predictor that has predicted nothing yet. -/
def ofNetwork (network : Network) (settings : Settings) : Predictor :=
  { network, cache := Cache.ofNetwork network, settings }

/-- A predictor with a cache that was filled by another one for the same network. -/
def ofCache (network : Network) (cache : Cache) (settings : Settings) :
    Except RecognitionError Predictor :=
  if cache.fits network then .ok { network, cache, settings }
  else .error (.invalidNetwork .foreignParserCache)

/-- Changes how alternatives are predicted.  The automata are kept. -/
def setMode (p : Predictor) (mode : PredictionMode) : Predictor :=
  { p with settings := { p.settings with mode } }

/-- Drops the automaton of a decision, or everything without one. -/
def clearCache (p : Predictor) (decision : Option Nat) : Predictor :=
  { p with cache := p.cache.clear decision }

/-- Sets the counters to zero. -/
def resetCounters (p : Predictor) : Predictor := { p with counters := {} }

/-- Takes the reports made so far. -/
def takeReports (p : Predictor) : List Diagnostic × Predictor :=
  (p.reports, { p with reports := [] })

/-- What closures for this predictor depend on. -/
def surroundings {σ : Type} (p : Predictor) (fullContext : Bool)
    (ask : Option (Guard → σ → Bool × σ)) : Surroundings σ :=
  { network := p.network, fullContext, ask, maxDepth := p.settings.maxDepth }

/-- Closes or moves configurations with the predictor's stacks, and counts the closures. -/
def withStacks {σ α : Type} (act : Run (Workspace σ) α) (author : σ) (p : Predictor) :
    Except RecognitionError α × σ × Predictor :=
  match p with
  | ⟨network, ⟨graph, automata⟩, settings, counters, listening, reports⟩ =>
    match act ⟨graph, author, 0⟩ with
    | (result, ⟨graph, author, closures⟩) =>
      (result, author,
        ⟨network, ⟨graph, automata⟩, settings,
          { counters with closures := counters.closures + closures }, listening, reports⟩)

/-- As `withStacks`, when nobody is asked to decide guards. -/
def withStacksOnly {α : Type} (act : Run (Workspace Unit) α) : Run Predictor α := fun p =>
  match p.withStacks act () with
  | (result, _, p) => (result, p)

/-! ## Configurations on demand -/

/-- The closed configurations with which the alternatives of a decision begin, for a caller's
stack that may or may not be known. -/
def startConfigs (decision : Nat) (outer : List Invocation) (fullContext : Bool) :
    Run Predictor ConfigSet := do
  let p ← get
  let state := (p.network.decisionState decision).id
  withStacksOnly ((p.surroundings fullContext none).startConfigs state outer)

/-- The closure of configurations. -/
def closure (configs : ConfigSet) (fullContext : Bool) : Run Predictor ConfigSet := do
  let p ← get
  withStacksOnly (Closure.closeAll (p.surroundings fullContext none) false configs.toList)

/-- The closed configurations reached by consuming a symbol, if there are any. -/
def reach (configs : ConfigSet) (x : Symbol) (fullContext : Bool) :
    Run Predictor (Option ConfigSet) := do
  let p ← get
  withStacksOnly ((p.surroundings fullContext none).reach false x configs)

/-! ## The automaton of a decision -/

/-- Changes the automaton of a decision. -/
def changeAutomaton (decision : Nat) (f : Automaton → Automaton) : Run Predictor Unit :=
  modify fun p => { p with cache := p.cache.change decision f }

/-- Adds a state to the automaton of a decision. -/
def addState (decision : Nat) (s : AutomatonState) : Run Predictor Target :=
  modifyGet fun p =>
    let (t, cache) := p.cache.addState decision s
    (t, { p with cache })

/-- Changes the counters. -/
def count (f : Counters → Counters) : Run Predictor Unit :=
  modify fun p => { p with counters := f p.counters }

/-- Stores an edge, if its symbol is the end of the input or in the vocabulary. -/
def storeEdge (decision : Nat) (source : Target) (x : Symbol) (t : Target) :
    Run Predictor Unit := do
  if endOfInput ≤ x && x ≤ (← get).network.maxSymbol then
    changeAutomaton decision (·.setEdge source x t)

/-- A state of the automaton of a decision. -/
def automatonState (decision : Nat) (source : Target) : Run Predictor AutomatonState := do
  match ((← get).cache.automaton decision).state? source, source with
  | some s, _ => pure s
  | none, .state i => throw (.badIndex "automaton states" i)
  | none, .error => throw (.badIndex "automaton states" 4294967295)

/-- The state for configurations that were reached. -/
def classifyReached (decision : Nat) (reached : ConfigSet) : Run Predictor AutomatonState :=
  modifyGet fun p =>
    let count := (p.network.decisionState decision).transitions.length
    let (made, graph) :=
      AutomatonState.classify p.settings.mode p.network count reached p.cache.graph
    (made, { p with cache := { p.cache with graph } })

/-- Works out an edge and stores it. -/
def computeEdge (decision : Nat) (source : Target) (x : Symbol) : Run Predictor Target := do
  let s ← automatonState decision source
  let p ← get
  match ← withStacksOnly ((p.surroundings false none).reach true x s.configs) with
  | none => do
    storeEdge decision source x .error
    pure .error
  | some reached => do
    let made ← classifyReached decision reached
    let t ← addState decision made
    storeEdge decision source x t
    pure t

/-- Follows an edge, which is worked out if it is missing. -/
def step (decision : Nat) (source : Target) (x : Symbol) : Run Predictor Target := do
  match ((← get).cache.automaton decision).edge? source x with
  | some t => do
    count fun c => { c with hits := c.hits + 1 }
    pure t
  | none => do
    count fun c => { c with misses := c.misses + 1 }
    computeEdge decision source x

/-! ## Predictions -/

variable {σ : Type}

/-- Does something with the predictor of a session. -/
def inSession {α : Type} (act : Run Predictor α) : Run (Session σ) α := fun ⟨p, stream, author⟩ =>
  match act p with
  | (result, p) => (result, ⟨p, stream, author⟩)

/-- Closes or moves configurations in a session. -/
def withSessionStacks {α : Type} (act : Run (Workspace σ) α) : Run (Session σ) α :=
  fun ⟨p, stream, author⟩ =>
    match p.withStacks act author with
    | (result, author, p) => (result, ⟨p, stream, author⟩)

/-- Goes to a place in the stream. -/
def seek (index : Nat) : Run (Session σ) Unit :=
  modify fun s => { s with stream := s.stream.seek index }

/-- Reports something to whoever listens. -/
def report (d : Diagnostic) : Run (Session σ) Unit :=
  modify fun s =>
    if s.predictor.listening then
      { s with predictor := { s.predictor with reports := s.predictor.reports ++ [d] } }
    else s

/-- Decides a guard under the rules of a question. -/
def decideGuard (q : Question σ) (g : Guard) : Run (Session σ) Bool :=
  modifyGet fun ⟨p, stream, author⟩ =>
    let (holds, author) := g.eval q.hooks q.outer author
    (holds, ⟨p, stream, author⟩)

/-- Whether a guard holds.  Nobody is asked if it is no condition. -/
def passes (q : Question σ) (g : Guard) : Run (Session σ) Bool :=
  if g.isAlways then pure true else decideGuard q g

/-- The alternatives whose guards hold, all of which are decided. -/
def admitted (q : Question σ) : List GuardedAlt → Run (Session σ) AltSet
  | [] => pure AltSet.empty
  | pair :: rest => do
    let holds ← passes q pair.guard
    let alts ← admitted q rest
    pure (if holds then alts.insert pair.alt else alts)

/-- Splits configurations into those whose guards hold and the others. -/
def splitByGuard (q : Question σ) : List Config → Run (Session σ) (List Config × List Config)
  | [] => pure ([], [])
  | c :: rest => do
    let holds ← passes q c.guard
    let (valid, invalid) ← splitByGuard q rest
    pure (if holds then (c :: valid, invalid) else (valid, c :: invalid))

/-- The lowest alternative that has finished the rule of the decision. -/
def finishedAlt? (n : Network) (g : StackGraph) (cs : List Config) : Option Nat :=
  (AltSet.ofList ((cs.filter fun c =>
    decide (0 < c.outerReach) || (n.isStop c.state && g.hasEmptyStack c.stack)).map
      Config.alt)).min?

/-- The alternative to take when the tokens run into an error: one that has finished the rule of
the decision, preferably with a guard that holds. -/
def fallback? (q : Question σ) (configs : ConfigSet) : Run (Session σ) (Option Nat) := do
  let (valid, invalid) ← splitByGuard q configs.toList
  let p := (← get).predictor
  let finished := finishedAlt? p.network p.cache.graph
  pure (finished valid <|> finished invalid)

/-- Gives up at the current token, unless there is an alternative to fall back to. -/
def giveUp (q : Question σ) (configs : ConfigSet) (x : Symbol) : Run (Session σ) Nat := do
  let offending := (← get).stream.index
  seek q.start
  match ← fallback? q configs with
  | some alt => pure alt
  | none => throw (.noViableAlt q.decision q.start offending x)

/-- Counts a step, unless there were too many. -/
def countStep (q : Question σ) (steps : Nat) : Run (Session σ) Unit := do
  let limit := (← get).predictor.settings.maxSteps
  if 0 < limit && limit ≤ steps then throw (.stepLimitExceeded q.decision limit)

/-- The next symbol after `x`, which is consumed unless it ends the input. -/
def readOn (x : Symbol) : Run (Session σ) Symbol := do
  if x = endOfInput then pure x
  else do
    modify fun s => { s with stream := s.stream.consume }
    pure (← get).stream.peek

/-- How the run with the caller's stack ends at configurations that were reached, if it does: with
an alternative, and whether an ambiguity is certain. -/
def settles? (exact : Bool) (x : Symbol) (previous reached : ConfigSet) : Option (Nat × Bool) :=
  let subsets := reached.conflictSubsets
  let settled :=
    match reached.uniqueAlt with
    | some alt => some (alt, false)
    | none =>
      if !exact then (Conflict.singleViable? subsets).map (·, false)
      else if Conflict.allContested subsets && Conflict.allEqual subsets then
        (Conflict.singleViable? subsets).map (·, true)
      else none
  settled <|>
    if x = endOfInput && reached.same previous then reached.alts.min?.map (·, false) else none

/-- What is reported where the run with the caller's stack ends. -/
def settled (q : Question σ) (stop alt : Nat) (certain : Bool) (reached : ConfigSet) : Diagnostic :=
  if reached.uniqueAlt.isSome then .contextSensitivity q.decision q.start stop alt reached
  else .ambiguity q.decision q.start stop certain reached.alts reached

/-- Looks at the tokens with configurations over the caller's stack. -/
def runFullContext (q : Question σ) (env : Surroundings σ) :
    (fuel steps : Nat) → ConfigSet → Symbol → Run (Session σ) Nat
  | 0, _, _, _ => throw .outOfFuel
  | fuel + 1, steps, previous, x => do
    countStep q steps
    match ← withSessionStacks (env.reach true x previous) with
    | none => giveUp q previous x
    | some reached => do
      let reached := { reached with uniqueAlt := reached.findUniqueAlt }
      let exact := (← get).predictor.settings.mode = .exactAmbiguity
      match settles? exact x previous reached with
      | some (alt, certain) => do
        let stop := (← get).stream.index
        report (settled q stop alt certain reached)
        pure alt
      | none => do
        let next ← readOn x
        runFullContext q env fuel (steps + 1) reached next

/-- Asks the caller's stack to settle a conflict between alternatives. -/
def startFullContext (q : Question σ) (steps : Nat) (conflicting : AltSet)
    (configs : ConfigSet) : Run (Session σ) Nat := do
  let stop := (← get).stream.index
  report (.fullContext q.decision q.start stop conflicting configs)
  inSession (count fun c => { c with llPredictions := c.llPredictions + 1 })
  let p := (← get).predictor
  let env := p.surroundings true (some fun g => g.eval q.hooks q.outer)
  let state := (p.cache.automaton q.decision).netState
  let start ← withSessionStacks (env.startConfigs state q.outer)
  seek q.start
  let stream := (← get).stream
  runFullContext q env (stream.size + 3) steps start stream.peek

/-- Counts a prediction made without the caller's stack. -/
def countSll : Run (Session σ) Unit :=
  inSession (count fun c => { c with sllPredictions := c.sllPredictions + 1 })

/-- Settles a conflict found by the automaton.  Where guards decide between the alternatives and
only one is left, the caller's stack is not asked. -/
def settleConflict (q : Question σ) (steps : Nat) (s : AutomatonState) : Run (Session σ) Nat := do
  match s.guardedAlts with
  | none => startFullContext q steps (s.configs.conflictingAlts.getD AltSet.empty) s.configs
  | some pairs => do
    let here := (← get).stream.index
    seek q.start
    let alts ← admitted q pairs
    match alts.toList with
    | [alt] => do
      countSll
      pure alt
    | _ => do
      seek here
      startFullContext q steps alts s.configs

/-- Takes what an accepting state recognises. -/
def accept (q : Question σ) (t : Target) (s : AutomatonState) (x : Symbol) :
    Run (Session σ) Nat := do
  match s.guardedAlts with
  | none => do
    countSll
    match s.prediction with
    | some alt => pure alt
    | none => throw (.internal (.noPrediction t.toText q.decision))
  | some pairs => do
    let stop := (← get).stream.index
    seek q.start
    let alts ← admitted q pairs
    countSll
    match alts.min? with
    | some alt => pure alt
    | none => throw (.noViableAlt q.decision q.start stop x)

/-- How the run of an automaton ends. -/
inductive Halt where
  /-- No configuration is left after `configs` at the symbol `x`. -/
  | stranded (configs : ConfigSet) (x : Symbol)
  /-- After so many steps a state asks for the caller's stack. -/
  | contested (steps : Nat) (s : AutomatonState)
  /-- A state recognises something before the symbol `x` is consumed. -/
  | accepting (t : Target) (s : AutomatonState) (x : Symbol)

/-- How the run of an automaton ends at a state before the symbol `x` is consumed, if it does. -/
def haltAt? (mode : PredictionMode) (steps : Nat) (t : Target) (s : AutomatonState) (x : Symbol) :
    Option Halt :=
  if s.needsFullContext && mode ≠ .sll then some (.contested (steps + 1) s)
  else if s.isAccept then some (.accepting t s x)
  else none

/-- Runs the automaton of a decision. -/
def runAutomaton (q : Question σ) : (fuel steps : Nat) → Target → Symbol → Run (Session σ) Halt
  | 0, _, _, _ => throw .outOfFuel
  | fuel + 1, steps, previous, x => do
    countStep q steps
    let t ← inSession (step q.decision previous x)
    if t.isError then do
      let s ← inSession (automatonState q.decision previous)
      pure (.stranded s.configs x)
    else do
      let s ← inSession (automatonState q.decision t)
      match haltAt? (← get).predictor.settings.mode steps t s x with
      | some halt => pure halt
      | none => do
        let next ← readOn x
        runAutomaton q fuel (steps + 1) t next

/-- The alternative that follows from how the run of the automaton ended. -/
def conclude (q : Question σ) : Halt → Run (Session σ) Nat
  | .stranded configs x => giveUp q configs x
  | .contested steps s => settleConflict q steps s
  | .accepting t s x => accept q t s x

/-- The state in which the automaton of a decision begins, worked out if it is not known. -/
def startState (q : Question σ) : Run (Session σ) Target := do
  let p := (← get).predictor
  let a := p.cache.automaton q.decision
  match a.start with
  | some t => pure t
  | none => do
    let env := p.surroundings false (some fun g => g.eval q.hooks q.outer)
    let configs ← withSessionStacks (env.startConfigs a.netState [])
    let t ← inSession (addState q.decision (AutomatonState.ofConfigs configs))
    inSession (changeAutomaton q.decision (·.setStart t))
    pure t

/-- Looks ahead without the caller's stack. -/
def lookAhead (q : Question σ) : Run (Session σ) Halt := do
  let start ← startState q
  let stream := (← get).stream
  runAutomaton q (stream.size + 2) 0 start stream.peek

/-- Chooses an alternative, without putting the stream back. -/
def choose (q : Question σ) : Run (Session σ) Nat := do
  let halt ← lookAhead q
  conclude q halt

/-- Chooses the alternative of a decision for the tokens ahead, under a stack of rule
invocations.  The stream is left where it was. -/
def predict (hooks : ParserHooks σ) (outer : List Invocation) (decision : Nat) :
    Run (Session σ) Nat := fun s =>
  if s.predictor.network.decisions.size ≤ decision then
    (.error (.internal (.noDecision decision)), s)
  else
    let start := s.stream.index
    match choose ⟨hooks, outer, decision, start⟩ s with
    | (result, ⟨p, stream, author⟩) =>
      (result,
        ⟨{ p with cache := { p.cache with graph := p.cache.graph.forgetMerges } },
          stream.seek start, author⟩)

end Predictor

end AdaptiveLL
