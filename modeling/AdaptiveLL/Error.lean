import AdaptiveLL.StateKind

/-!
# Errors

What can go wrong, as causes.  `NetworkFault` says why a network is refused, `StackFault` why a
node of the stack graph is, and `RecognitionError` collects these with the errors of a run.  The
functions `message` hold the wording.

Two causes stand apart.  `badIndex` reports a table that was read outside its bounds, and
`outOfFuel` a run that was cut off because it used up the steps that its caller allowed.
-/

namespace AdaptiveLL

/-- What a stack graph calls one of its nodes in a message: `$` for the empty stack. -/
def nodeText (index : Nat) : String := if index = 0 then "$" else "#" ++ toString index

/-- Why a network, or the use of one, is refused. -/
inductive NetworkFault where
  /-- The tables of rule starts and rule stops have different lengths. -/
  | ruleTablesDiffer
  /-- A state's number is not its position. -/
  | misplacedState (position id : Nat)
  /-- A table entry names a state that is missing or of another kind. -/
  | wrongKind (entry : String) (id : Nat) (kind : StateKind)
  /-- The ends of a rule carry another rule's number. -/
  | foreignEnds (rule : Nat)
  /-- A transition leads nowhere. -/
  | missingTarget (state target : Nat)
  /-- A call does not lead to the start of the rule it names. -/
  | wrongCall (state rule target : Nat)
  /-- A call returns nowhere. -/
  | missingFollow (state follow : Nat)
  /-- A precedence requirement in a lexer. -/
  | precedenceInLexer
  /-- A lexer action whose command is not listed. -/
  | missingCommand (state index : Nat)
  /-- A decision whose state does not carry its number. -/
  | strayDecision (decision : Nat)
  /-- The table of token types does not cover the rules. -/
  | tokenTypesLength
  /-- A state that calls no rule was asked where it returns to. -/
  | noCall (state : Nat)
  /-- A rule name was used twice. -/
  | duplicateRule (name : String)
  /-- A rule was called that is not defined. -/
  | undefinedRule (name : String)
  /-- A lexer command in a parser rule. -/
  | commandInParser (command : String)
  /-- The text does not describe a network. -/
  | undecodable
  /-- A parser was given a cache of another network. -/
  | foreignParserCache
  /-- A lexer was given a cache of another network. -/
  | foreignLexerCache
  /-- A lexer was asked to run a parser's network. -/
  | notLexer
  /-- A parser was asked to run a lexer's network. -/
  | notParser
  /-- A lexer mode that does not exist. -/
  | noMode (mode : Nat)
  /-- A rule number that does not exist. -/
  | noRule (rule : Nat)
  /-- A rule name that does not exist. -/
  | noRuleNamed (name : String)
  /-- A reason given in words. -/
  | described (reason : String)
deriving DecidableEq, Repr

/-- The wording of a fault. -/
def NetworkFault.message : NetworkFault → String
  | ruleTablesDiffer => "rule start and stop tables differ in length"
  | misplacedState position id =>
    "state at position " ++ toString position ++ " has id " ++ toString id
  | wrongKind entry id kind =>
    entry ++ " " ++ toString id ++ " is not a " ++ kind.name ++ " state"
  | foreignEnds rule =>
    "rule " ++ toString rule ++ " start/stop states belong to another rule"
  | missingTarget state target =>
    "state " ++ toString state ++ " has a transition to missing state " ++ toString target
  | wrongCall state rule target =>
    "state " ++ toString state ++ " calls rule " ++ toString rule ++ " through state "
      ++ toString target
  | missingFollow state follow =>
    "state " ++ toString state ++ " has missing follow state " ++ toString follow
  | precedenceInLexer => "precedence predicates are not supported in lexers"
  | missingCommand state index =>
    "state " ++ toString state ++ " references missing lexer action " ++ toString index
  | strayDecision decision =>
    "decision " ++ toString decision ++ " does not point at its decision state"
  | tokenTypesLength => "lexer rule to token type table has the wrong length"
  | noCall state => "state " ++ toString state ++ " does not invoke a rule"
  | duplicateRule name => "rule " ++ name ++ " defined twice"
  | undefinedRule name => "reference to undefined rule " ++ name
  | commandInParser command => "lexer command " ++ command ++ " in a parser rule"
  | undecodable => "the text does not describe a network"
  | foreignParserCache => "prediction cache was built for a different ATN"
  | foreignLexerCache => "lexer cache was built for a different ATN"
  | notLexer => "not a lexer ATN"
  | notParser => "not a parser ATN"
  | noMode mode => "no lexer mode " ++ toString mode
  | noRule rule => "no rule " ++ toString rule
  | noRuleNamed name => "no rule \x27" ++ name ++ "\x27"
  | described reason => reason

/-- Why a node is refused by a stack graph. -/
inductive StackFault where
  /-- A node without frames. -/
  | noFrames
  /-- The numbers of parents and of return states differ. -/
  | ragged (parents returns : Nat)
  /-- The return states are not strictly ascending. -/
  | notAscending
  /-- A parent that is not in the graph. -/
  | unknownParent (parent : Nat)
  /-- The end of the stack was given a parent. -/
  | bottomWithParent
  /-- A reason given in words. -/
  | described (reason : String)
deriving DecidableEq, Repr

/-- The wording of a fault. -/
def StackFault.message : StackFault → String
  | noFrames => "empty array"
  | ragged parents returns =>
    toString parents ++ " parents for " ++ toString returns ++ " return states"
  | notAscending => "return states not strictly ascending"
  | unknownParent parent => "unknown parent " ++ nodeText parent
  | bottomWithParent => "\x60$\x60 entry with a parent"
  | described reason => reason

/-- A state of affairs that a sound network never leads to. -/
inductive InternalFault where
  /-- A decision that the network does not have. -/
  | noDecision (decision : Nat)
  /-- An accepting automaton state without a prediction. -/
  | noPrediction (state : String) (decision : Nat)
  /-- A rule ended while none was running. -/
  | stackUnderflow
  /-- A predicted alternative that the state does not have. -/
  | noAlternative (state alt : Nat)
  /-- A reason given in words. -/
  | described (message : String)
deriving DecidableEq, Repr

/-- The wording of a fault. -/
def InternalFault.message : InternalFault → String
  | noDecision decision => "no decision " ++ toString decision
  | noPrediction state decision =>
    "accept state " ++ state ++ " of decision " ++ toString decision ++ " has no prediction"
  | stackUnderflow => "rule stack underflow"
  | noAlternative state alt => "state " ++ toString state ++ " has no alternative " ++ toString alt
  | described message => message

/-- Why recognition failed. -/
inductive RecognitionError where
  /-- No alternative of a decision fits the tokens ahead. -/
  | noViableAlt (decision startIndex offendingIndex : Nat) (offendingType : Int)
  /-- No token rule fits the characters ahead. -/
  | lexerNoViableAlt (mode startIndex index line column : Nat)
  /-- A predicate outside of any decision does not hold. -/
  | failedPredicate (rule : Nat) (predicate : String) (index : Nat)
  /-- The next token is not the one that the network asks for. -/
  | inputMismatch (state : Nat) (found : Int) (index : Nat)
  /-- The network is refused. -/
  | invalidNetwork (fault : NetworkFault)
  /-- A node of the stack graph is refused. -/
  | invalidStack (fault : StackFault)
  /-- A closure would nest deeper than allowed. -/
  | closureDepthExceeded (depth maxDepth : Nat)
  /-- A prediction would look further ahead than allowed. -/
  | stepLimitExceeded (decision maxSteps : Nat)
  /-- A mode was left while none was suspended. -/
  | modeStackEmpty (index : Nat)
  /-- A sound network never leads here. -/
  | internal (fault : InternalFault)
  /-- A table was read outside its bounds. -/
  | badIndex (table : String) (index : Nat)
  /-- The run used up the steps that its caller allowed. -/
  | outOfFuel
deriving DecidableEq, Repr

namespace RecognitionError

/-- The wording of an error. -/
def message : RecognitionError → String
  | noViableAlt decision startIndex offendingIndex offendingType =>
    "No viable alternative for decision " ++ toString decision ++ " at token "
      ++ toString offendingIndex ++ " (type " ++ toString offendingType
      ++ "), prediction started at token " ++ toString startIndex
  | lexerNoViableAlt mode startIndex index line column =>
    "Token recognition error at line " ++ toString line ++ ", column " ++ toString column
      ++ " (chars " ++ toString startIndex ++ ".." ++ toString index ++ ", mode "
      ++ toString mode ++ ")"
  | failedPredicate rule predicate index =>
    "Predicate " ++ predicate ++ " failed in rule " ++ toString rule ++ " at token "
      ++ toString index
  | inputMismatch state found index =>
    "Mismatched input at token " ++ toString index ++ " (type " ++ toString found
      ++ ") in state " ++ toString state
  | invalidNetwork fault => "Invalid ATN: " ++ fault.message
  | invalidStack fault => "Invalid context node: " ++ fault.message
  | closureDepthExceeded depth maxDepth =>
    "Closure depth limit exceeded: depth " ++ toString depth ++ " exceeds limit of "
      ++ toString maxDepth
  | stepLimitExceeded decision maxSteps =>
    "Prediction step limit exceeded for decision " ++ toString decision ++ ": more than "
      ++ toString maxSteps ++ " lookahead symbols"
  | modeStackEmpty index => "popMode with empty mode stack at char " ++ toString index
  | internal fault => "Internal error: " ++ fault.message
  | badIndex table index => "No entry " ++ toString index ++ " in table " ++ table
  | outOfFuel => "The run was cut off"

/-- Whether the input is to blame. -/
def isSyntaxError : RecognitionError → Bool
  | noViableAlt .. | lexerNoViableAlt .. | failedPredicate .. | inputMismatch .. => true
  | _ => false

end RecognitionError

/-- A computation that changes a state of type `σ` and may fail.  The state that a failing
computation has reached is kept. -/
abbrev Run (σ α : Type) := ExceptT RecognitionError (StateM σ) α

end AdaptiveLL
