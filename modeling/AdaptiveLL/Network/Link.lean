import AdaptiveLL.Network.Basic

/-!
# Linking

A network from outside is used only after it was linked.  `Network.fault?` finds the first thing
that is wrong with it: tables and states that contradict one another, transitions or calls that
lead nowhere, decisions without their state.  `Network.link` refuses such a network.  In any
other it replaces the return transitions of every rule stop state by those that follow from the
calls of the rule, in the order of the calling states and their transitions, and works out which
states have free transitions only.
-/

namespace AdaptiveLL

/-- A rule stop state without its return transitions. -/
def State.withoutReturns (s : State) : State :=
  if s.isStop then { s with transitions := s.transitions.filter fun t => !t.isReturn } else s

namespace Network

/-- The network without the return transitions of its rule stop states. -/
def withoutReturns (n : Network) : Network := { n with states := n.states.map State.withoutReturns }

/-! ## Faults -/

/-- A state whose number is not its position. -/
def placementFault? (n : Network) : Option NetworkFault :=
  (List.range n.states.size).findSome? fun i =>
    let id := (n.state i).id
    if id = i then none else some (.misplacedState i id)

/-- A table entry that does not name a state of the given kind. -/
def kindFault? (n : Network) (id : Nat) (kind : StateKind) (entry : String) :
    Option NetworkFault :=
  match n.states[id]? with
  | some s => if s.kind = kind then none else some (.wrongKind entry id kind)
  | none => some (.wrongKind entry id kind)

/-- What is wrong with the ends of a rule. -/
def ruleFault? (n : Network) (rule start stop : Nat) : Option NetworkFault :=
  n.kindFault? start .ruleStart "rule start"
    <|> n.kindFault? stop .ruleStop "rule stop"
    <|> if (n.state start).rule = rule && (n.state stop).rule = rule then none
        else some (.foreignEnds rule)

/-- What is wrong with the ends of the rules. -/
def rulesFault? (n : Network) : Option NetworkFault :=
  (List.range n.ruleStarts.size).findSome? fun rule =>
    match n.ruleStarts[rule]?, n.ruleStops[rule]? with
    | some start, some stop => n.ruleFault? rule start stop
    | _, _ => none

/-- What is wrong with a transition of a state. -/
def transitionFault? (n : Network) (s : State) (t : Transition) : Option NetworkFault :=
  if n.states.size ≤ t.target then some (.missingTarget s.id t.target)
  else
    match t with
    | .call target rule _ follow =>
      if n.ruleStarts[rule]? ≠ some target then some (.wrongCall s.id rule target)
      else if n.states.size ≤ follow then some (.missingFollow s.id follow)
      else none
    | .precedence .. => if n.kind = .lexer then some .precedenceInLexer else none
    | .action _ _ index _ =>
      if n.kind = .lexer && decide (n.commands.size ≤ index) then
        some (.missingCommand s.id index)
      else none
    | _ => none

/-- What is wrong with the transitions. -/
def transitionsFault? (n : Network) : Option NetworkFault :=
  n.states.toList.findSome? fun s => s.transitions.findSome? (n.transitionFault? s)

/-- A decision whose state does not carry its number. -/
def decisionsFault? (n : Network) : Option NetworkFault :=
  (List.range n.decisions.size).findSome? fun d =>
    match n.decisions[d]?.bind (n.states[·]?) with
    | some s => if s.decision = some d then none else some (.strayDecision d)
    | none => some (.strayDecision d)

/-- What is wrong with the tables of a lexer. -/
def lexerFault? (n : Network) : Option NetworkFault :=
  if n.kind ≠ .lexer then none
  else if n.tokenTypes.size ≠ n.ruleStarts.size then some .tokenTypesLength
  else n.modeStarts.toList.findSome? fun id => n.kindFault? id .tokensStart "mode start"

/-- The first thing that is wrong with a network. -/
def fault? (n : Network) : Option NetworkFault :=
  (if n.ruleStarts.size ≠ n.ruleStops.size then some .ruleTablesDiffer else none)
    <|> n.placementFault? <|> n.rulesFault? <|> n.transitionsFault? <|> n.decisionsFault?
    <|> n.lexerFault?

/-! ## Return transitions -/

/-- The stop state and the follow state of each call, in the order of the calls. -/
def calls (n : Network) : List (Nat × Nat) :=
  n.states.toList.flatMap fun s =>
    s.transitions.filterMap fun
      | .call _ rule _ follow => n.ruleStops[rule]?.map (·, follow)
      | _ => none

/-- The return transitions of a state, given the calls. -/
def returnsOf (calls : List (Nat × Nat)) (id : Nat) : List Transition :=
  (calls.filter (·.1 = id)).map fun call => .ret call.2

/-- The network with the return transitions that follow from its calls, and with the states
marked that have free transitions only. -/
def withReturns (n : Network) : Network :=
  let calls := n.calls
  { n with
    states := n.states.map fun s =>
      let s := { s with transitions := s.transitions ++ returnsOf calls s.id }
      { s with freeOnly := s.hasOnlyFree } }

/-- Checks a network and derives what follows from the rest of it. -/
def link (n : Network) : Except RecognitionError Network :=
  let n := n.withoutReturns
  match n.fault? with
  | some fault => .error (.invalidNetwork fault)
  | none => .ok n.withReturns

end Network

end AdaptiveLL
