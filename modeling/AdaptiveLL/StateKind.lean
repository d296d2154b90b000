/-!
# Kinds of states

The role that a state plays in its network.
-/

namespace AdaptiveLL

/-- The role of a state. -/
inductive StateKind where
  /-- A state with no role of its own. -/
  | basic
  /-- Where a rule begins. -/
  | ruleStart
  /-- Where a rule ends. -/
  | ruleStop
  /-- Where alternatives part. -/
  | blockStart
  /-- Where the body of a repetition of one or more begins. -/
  | plusBlockStart
  /-- Where the body of a repetition of any number begins. -/
  | starBlockStart
  /-- Where alternatives meet. -/
  | blockEnd
  /-- After the body of a repetition of one or more: again, or on. -/
  | plusLoopBack
  /-- In front of the body of a repetition of any number: in, or past. -/
  | starLoopEntry
  /-- After the body of a repetition of any number. -/
  | starLoopBack
  /-- Behind a repetition. -/
  | loopEnd
  /-- Where the token rules of a lexer mode part. -/
  | tokensStart
deriving DecidableEq, Repr, Inhabited

namespace StateKind

/-- Every kind. -/
def all : List StateKind :=
  [basic, ruleStart, ruleStop, blockStart, plusBlockStart, starBlockStart, blockEnd, plusLoopBack,
   starLoopEntry, starLoopBack, loopEnd, tokensStart]

/-- The name of a kind in descriptions of networks. -/
def name : StateKind → String
  | basic => "Basic"
  | ruleStart => "RuleStart"
  | ruleStop => "RuleStop"
  | blockStart => "BlockStart"
  | plusBlockStart => "PlusBlockStart"
  | starBlockStart => "StarBlockStart"
  | blockEnd => "BlockEnd"
  | plusLoopBack => "PlusLoopBack"
  | starLoopEntry => "StarLoopEntry"
  | starLoopBack => "StarLoopBack"
  | loopEnd => "LoopEnd"
  | tokensStart => "TokensStart"

/-- The kind with a given name. -/
def ofName? (text : String) : Option StateKind := all.find? (·.name == text)

theorem ofName?_name (k : StateKind) : ofName? k.name = some k := by
  cases k <;> decide

/-- Whether several ways can lead on from a state of this kind. -/
def isDecision : StateKind → Bool
  | blockStart | plusBlockStart | starBlockStart | plusLoopBack | starLoopEntry | tokensStart =>
    true
  | _ => false

end StateKind

end AdaptiveLL
