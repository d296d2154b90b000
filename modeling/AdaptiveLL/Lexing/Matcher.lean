import AdaptiveLL.Automaton.Cache
import AdaptiveLL.Input.CharStream
import AdaptiveLL.Lexing.Closure
import AdaptiveLL.Lexing.Hooks
import AdaptiveLL.Settings

/-!
# Matching a token

`Matcher.next` matches one token.  It runs the automaton of the lexer's mode as long as
configurations are left, remembers the last state that recognised a token, and goes back to there.
So the longest match wins, and of several rules that match equally far the first one.

Edges are stored for the first 128 characters only, and not where a predicate was decided on the
way, since it may be decided otherwise in another place.

A predicate met while a character is being consumed sees the lexer behind that character.
-/

namespace AdaptiveLL

/-- A lexer's network with the automata of its modes, and the place that was reached. -/
structure Matcher where
  /-- The network. -/
  network : Network
  /-- The automata. -/
  cache : Cache
  /-- The settings. -/
  settings : Settings := {}
  /-- What was counted. -/
  counters : Counters := {}
  /-- Where the token begins. -/
  tokenStart : Nat := 0
  /-- The position of the next character. -/
  position : Position := {}

/-- What matching changes. -/
structure Scan (σ : Type) where
  /-- The matcher. -/
  matcher : Matcher
  /-- The characters ahead. -/
  stream : CharStream
  /-- The state of the author's callbacks. -/
  author : σ

/-- What was recognised. -/
structure TokenMatch where
  /-- The type of the token. -/
  type : Int
  /-- Its commands, which are still to be carried out. -/
  commands : Option (List Command) := none
deriving DecidableEq, Repr

/-- A place at which a token was recognised. -/
structure Checkpoint where
  /-- How many characters lie before it. -/
  index : Nat
  /-- Its position. -/
  position : Position
  /-- The automaton state that recognised the token. -/
  target : Target

namespace Matcher

/-- A matcher that has matched nothing yet. -/
def ofNetwork (network : Network) (settings : Settings) : Matcher :=
  { network, cache := Cache.ofNetwork network, settings }

/-- A matcher with a cache that was filled by another one for the same network. -/
def ofCache (network : Network) (cache : Cache) (settings : Settings) :
    Except RecognitionError Matcher :=
  if cache.fits network then .ok { network, cache, settings }
  else .error (.invalidNetwork .foreignLexerCache)

/-- Drops the automaton of a decision, or everything without one. -/
def clearCache (m : Matcher) (decision : Option Nat) : Matcher :=
  { m with cache := m.cache.clear decision }

/-- Sets the counters to zero. -/
def resetCounters (m : Matcher) : Matcher := { m with counters := {} }

/-- Says which position the next character has. -/
def setPosition (m : Matcher) (position : Position) : Matcher := { m with position }

/-- The decision made at the start of a mode. -/
def modeDecision (m : Matcher) (mode : Nat) : Except RecognitionError Nat :=
  if m.network.kind ≠ .lexer then .error (.invalidNetwork .notLexer)
  else
    match m.network.modeStarts[mode]? with
    | none => .error (.invalidNetwork (.noMode mode))
    | some start =>
      match m.network.state? start with
      | .error e => .error e
      | .ok s =>
        match s.decision with
        | some decision =>
          if decision < m.network.decisions.size then .ok decision
          else .error (.badIndex "automata" decision)
        | none => .error (.invalidNetwork (.noMode mode))

/-- The token that configurations recognise: that of the first one at the end of a rule. -/
def recognised? (n : Network) : List Config →
    Except RecognitionError (Option (Int × Option (List Command)))
  | [] => .ok none
  | c :: rest =>
    match n.state? c.state with
    | .error e => .error e
    | .ok s =>
      if s.isStop then
        match n.tokenTypes[s.rule]? with
        | some type => .ok (some (type, c.commands))
        | none => .error (.badIndex "token types" s.rule)
      else recognised? n rest

/-- The automaton state for configurations. -/
def classify (n : Network) (configs : ConfigSet) : Except RecognitionError AutomatonState :=
  match recognised? n configs.toList with
  | .error e => .error e
  | .ok none => .ok (AutomatonState.ofConfigs configs)
  | .ok (some (tokenType, commands)) =>
    .ok { AutomatonState.ofConfigs configs with isAccept := true, tokenType, commands }

/-- Whether an edge for a symbol may be stored. -/
def isStored (x : Symbol) : Bool := 0 ≤ x && x ≤ 127

end Matcher

namespace Scan

variable {σ : Type}

/-- Where the lexer stands. -/
def cursor (s : Scan σ) : Cursor :=
  ⟨s.stream.index, s.matcher.position, s.matcher.tokenStart⟩

/-- Goes past the next character. -/
def consume (s : Scan σ) : Scan σ :=
  { s with
    matcher := { s.matcher with position := s.matcher.position.past s.stream.peek }
    stream := s.stream.consume }

/-- A computation that may fail without changing anything. -/
def check {τ α : Type} : Except RecognitionError α → Run τ α
  | .ok a => pure a
  | .error e => throw e

/-- Closes or moves configurations with the matcher's stacks, and counts the closures. -/
def withStacks {α : Type} (act : Run (Workspace σ) α) : Run (Scan σ) α :=
  fun ⟨⟨network, ⟨graph, automata⟩, settings, counters, tokenStart, position⟩, stream, author⟩ =>
    match act ⟨graph, author, 0⟩ with
    | (result, ⟨graph, author, closures⟩) =>
      (result,
        ⟨⟨network, ⟨graph, automata⟩, settings,
          { counters with closures := counters.closures + closures }, tokenStart, position⟩,
          stream, author⟩)

/-- Changes the matcher. -/
def change (f : Matcher → Matcher) : Run (Scan σ) Unit :=
  modify fun s => { s with matcher := f s.matcher }

/-- A state of the automaton of a decision. -/
def automatonState (decision : Nat) (t : Target) : Run (Scan σ) AutomatonState := do
  match ((← get).matcher.cache.automaton decision).state? t, t with
  | some s, _ => pure s
  | none, .state i => throw (.badIndex "automaton states" i)
  | none, .error => throw (.badIndex "automaton states" 4294967295)

/-- Adds the state for configurations to the automaton of a decision. -/
def addState (decision : Nat) (configs : ConfigSet) : Run (Scan σ) Target := do
  let state ← check (Matcher.classify (← get).matcher.network configs)
  modifyGet fun s =>
    let (t, cache) := s.matcher.cache.addState decision state
    (t, { s with matcher := { s.matcher with cache } })

/-- Changes the automaton of a decision. -/
def changeAutomaton (decision : Nat) (f : Automaton → Automaton) : Run (Scan σ) Unit :=
  change fun m => { m with cache := m.cache.change decision f }

/-- What a closure sees from where the lexer stands; predicates are decided at `cursor`. -/
def outlook (hooks : LexerHooks σ) (s : Scan σ) (cursor : Cursor) (endIsFree : Bool) :
    Outlook σ where
  network := s.matcher.network
  endIsFree
  ask rule index := hooks.predicate rule index cursor
  maxDepth := s.matcher.settings.maxDepth

/-- The state in which the automaton of a mode begins, worked out if it is not known. -/
def startState (hooks : LexerHooks σ) (mode decision : Nat) : Run (Scan σ) Target := do
  let s ← get
  match (s.matcher.cache.automaton decision).start with
  | some t => pure t
  | none => do
    let start := s.matcher.network.modeStarts[mode]?.getD s.matcher.network.states.size
    let configs ← withStacks ((s.outlook hooks s.cursor false).startConfigs start)
    let t ← addState decision { configs with hasGuards := false }
    if !configs.hasGuards then changeAutomaton decision (·.setStart t)
    pure t

/-- Works out an edge, and stores it if that is allowed. -/
def computeEdge (hooks : LexerHooks σ) (decision : Nat) (source : Target) (x : Symbol) :
    Run (Scan σ) Target := do
  let state ← automatonState decision source
  let s ← get
  let env := s.outlook hooks s.consume.cursor (x = endOfInput)
  let configs ← withStacks (env.reach (s.stream.index - s.matcher.tokenStart) x state.configs)
  let t ←
    if configs.isEmpty then pure .error
    else addState decision { configs with hasGuards := false }
  if !configs.hasGuards && Matcher.isStored x then
    changeAutomaton decision (·.setEdge source x t)
  pure t

/-- Follows an edge, which is worked out if it is not stored. -/
def step (hooks : LexerHooks σ) (decision : Nat) (source : Target) (x : Symbol) :
    Run (Scan σ) Target := do
  let a := (← get).matcher.cache.automaton decision
  match if Matcher.isStored x then a.edge? source x else none with
  | some t => do
    change fun m => { m with counters := { m.counters with hits := m.counters.hits + 1 } }
    pure t
  | none => do
    change fun m => { m with counters := { m.counters with misses := m.counters.misses + 1 } }
    computeEdge hooks decision source x

/-- The place reached, if a state recognises a token there. -/
def checkpoint? (decision : Nat) (t : Target) : Run (Scan σ) (Option Checkpoint) := do
  let state ← automatonState decision t
  let s ← get
  pure (if state.isAccept then some ⟨s.stream.index, s.matcher.position, t⟩ else none)

/-- Runs the automaton of a mode, and gives the last place at which a token was recognised. -/
def munch (hooks : LexerHooks σ) (decision : Nat) :
    (fuel : Nat) → Option Checkpoint → Target → Symbol → Run (Scan σ) (Option Checkpoint × Symbol)
  | 0, _, _, _ => throw .outOfFuel
  | fuel + 1, last, source, x => do
    let t ← step hooks decision source x
    if t.isError then pure (last, x)
    else do
      if x ≠ endOfInput then modify consume
      let here ← checkpoint? decision t
      if x = endOfInput && here.isSome then pure (here, x)
      else munch hooks decision fuel (here <|> last) t (← get).stream.peek

/-- Goes back to a place at which a token was recognised, and takes it. -/
def commit (decision : Nat) (place : Checkpoint) : Run (Scan σ) TokenMatch := do
  modify fun s =>
    { s with
      matcher := s.matcher.setPosition place.position
      stream := s.stream.seek place.index }
  let state ← automatonState decision place.target
  pure ⟨state.tokenType, state.commands⟩

/-- Matches one token in a mode.  At the end of the input that is the end itself. -/
def next (hooks : LexerHooks σ) (mode : Nat) : Run (Scan σ) TokenMatch := do
  let decision ← check ((← get).matcher.modeDecision mode)
  modify fun s => { s with matcher := { s.matcher with tokenStart := s.stream.index } }
  let begin ← get
  let start ← startState hooks mode decision
  let first ← checkpoint? decision start
  let fuel := begin.matcher.settings.fuel begin.stream.size
  match ← munch hooks decision fuel first start begin.stream.peek with
  | (some place, _) => commit decision place
  | (none, x) => do
    let index := (← get).stream.index
    if x = endOfInput && index = begin.stream.index then pure ⟨endOfInput, none⟩
    else
      throw (.lexerNoViableAlt mode begin.stream.index index begin.matcher.position.line
        begin.matcher.position.column)

end Scan
end AdaptiveLL
