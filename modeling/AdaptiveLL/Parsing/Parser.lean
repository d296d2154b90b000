import AdaptiveLL.Parsing.Trace
import AdaptiveLL.Prediction.Predictor

/-!
# Parsing

`Session.parse` recognises a rule by walking its network over the tokens.  At a state with several
ways on, the alternative is predicted.  A rule call is remembered in the stack of invocations, and
at the end of the rule the walk goes on behind the call.

A rule need not use up the tokens, unless it ends with the end of the input.  When parsing fails,
the stream is left where it failed.

`Session.parseTwoStage` first predicts without the caller's stack, which is cheaper, and parses
again with it if the tokens were refused.
-/

namespace AdaptiveLL
namespace Session

variable {σ : Type}

/-- A parser walking through a network. -/
structure Walk where
  /-- The state it is at. -/
  state : Nat
  /-- The rules that are being recognised, outermost first. -/
  running : List Invocation
  /-- What was done, the last thing first. -/
  done : List TraceEvent

namespace Walk

/-- A walk at the start of a rule that nobody called. -/
def start (state rule index : Nat) : Walk := ⟨state, [.root rule], [.enterRule rule index]⟩

/-- The walk at another state. -/
def moveTo (w : Walk) (state : Nat) : Walk := { w with state }

/-- The walk after something was done. -/
def noting (w : Walk) (event : TraceEvent) : Walk := { w with done := event :: w.done }

/-- What was done, in order. -/
def trace (w : Walk) : Trace := ⟨w.done.reverse⟩

end Walk

/-- Goes on if a guard holds for the running rules. -/
def require (hooks : ParserHooks σ) (running : List Invocation) (rule : Nat) (g : Guard) :
    Run (Session σ) Unit := fun ⟨predictor, stream, author⟩ =>
  match g.eval hooks running author with
  | (true, author) => (.ok (), ⟨predictor, stream, author⟩)
  | (false, author) =>
    (.error (.failedPredicate rule g.toText stream.index), ⟨predictor, stream, author⟩)

/-- Matches the next token by a transition. -/
def matchToken (w : Walk) (t : Transition) : Run (Session σ) Walk := do
  let s ← get
  let x := s.stream.peek
  let n := s.predictor.network
  if t.consumes n.minSymbol n.maxSymbol x then do
    if x ≠ endOfInput then set { s with stream := s.stream.consume }
    pure ((w.noting (.token x s.stream.index)).moveTo t.target)
  else throw (.inputMismatch w.state x s.stream.index)

/-- Goes along a transition. -/
def take (hooks : ParserHooks σ) (w : Walk) (t : Transition) : Run (Session σ) Walk := do
  match t with
  | .epsilon target | .ret target => pure (w.moveTo target)
  | .call target rule level _ => do
    let event := .enterRule rule (← get).stream.index
    pure ⟨target, w.running ++ [.called rule w.state level], event :: w.done⟩
  | .predicate target rule index contextual => do
    require hooks w.running rule (.predicate rule index contextual)
    pure (w.moveTo target)
  | .precedence target level => do
    let rule := ((← get).predictor.network.state w.state).rule
    require hooks w.running rule (.precedence level)
    pure (w.moveTo target)
  | .action target rule index _ => do
    modify fun s => { s with author := hooks.action w.running rule index s.author }
    pure (w.moveTo target)
  | .symbol .. | .range .. | .set .. | .notSet .. | .wildcard _ => matchToken w t

/-- Ends the innermost rule.  The walk is over if nobody called it, and else goes on behind the
call. -/
def leave (w : Walk) : Run (Session σ) (Trace ⊕ Walk) := do
  match w.running.getLast? with
  | none => throw (.internal .stackUnderflow)
  | some frame => do
    let s ← get
    let w := w.noting (.exitRule frame.rule s.stream.index)
    match frame.caller with
    | none => pure (.inl w.trace)
    | some caller =>
      match s.predictor.network.follow caller with
      | .ok state => pure (.inr { w with state, running := w.running.dropLast })
      | .error e => throw e

/-- Chooses a way on from the state of a walk. -/
def choose (hooks : ParserHooks σ) (w : Walk) (s : State) : Run (Session σ) (Nat × Walk) := do
  match s.decision, s.transitions with
  | some decision, _ :: _ :: _ => do
    let index := (← get).stream.index
    let alt ← Predictor.predict hooks w.running decision
    pure (alt, w.noting (.decision decision w.state alt index))
  | _, _ => pure (1, w)

/-- One step of a walk. -/
def step (hooks : ParserHooks σ) (w : Walk) : Run (Session σ) (Trace ⊕ Walk) := do
  match (← get).predictor.network.state? w.state with
  | .error e => throw e
  | .ok s =>
    if s.isStop then leave w
    else do
      let (alt, w) ← choose hooks w s
      match s.alternative? alt with
      | some t => .inr <$> take hooks w t
      | none => throw (.internal (.noAlternative w.state alt))

/-- A walk of so many steps at most. -/
def walk (hooks : ParserHooks σ) : (fuel : Nat) → Walk → Run (Session σ) Trace
  | 0, _ => throw .outOfFuel
  | fuel + 1, w => do
    match ← step hooks w with
    | .inl trace => pure trace
    | .inr w => walk hooks fuel w

/-- Recognises a rule from the current token on. -/
def parse (hooks : ParserHooks σ) (rule : Nat) : Run (Session σ) Trace := do
  let s ← get
  if s.predictor.network.kind ≠ .parser then throw (.invalidNetwork .notParser)
  else
    match s.predictor.network.ruleStarts[rule]? with
    | none => throw (.invalidNetwork (.noRule rule))
    | some state =>
      walk hooks (s.predictor.settings.fuel s.stream.size) (.start state rule s.stream.index)

/-- Recognises the rule with a name. -/
def parseRule (hooks : ParserHooks σ) (name : String) : Run (Session σ) Trace := do
  match (← get).predictor.network.rule? name with
  | some rule => parse hooks rule
  | none => throw (.invalidNetwork (.noRuleNamed name))

/-- Changes how alternatives are predicted. -/
def setMode (mode : PredictionMode) : Run (Session σ) Unit :=
  modify fun s => { s with predictor := s.predictor.setMode mode }

/-- The way of predicting that a second attempt uses. -/
def secondMode : PredictionMode → PredictionMode
  | .sll => .ll
  | mode => mode

/-- Recognises a rule without the caller's stack, and once more with it if the tokens were
refused. -/
def parseTwoStage (hooks : ParserHooks σ) (rule : Nat) : Run (Session σ) Trace := do
  let s ← get
  let mode := s.predictor.settings.mode
  let attempt : Run (Session σ) Trace :=
    tryCatch (do setMode .sll; parse hooks rule) fun e =>
      if e.isSyntaxError then do
        modify fun now => { now with stream := now.stream.seek s.stream.index }
        setMode (secondMode mode)
        parse hooks rule
      else throw e
  tryCatch (do let trace ← attempt; setMode mode; pure trace) fun e => do setMode mode; throw e

end Session
end AdaptiveLL
