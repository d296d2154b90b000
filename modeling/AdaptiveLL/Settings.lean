import AdaptiveLL.Rate

/-!
# Settings and counters

How alternatives are predicted, how much work is allowed, and what is counted meanwhile.
-/

namespace AdaptiveLL

/-- How much of the call stack a prediction takes into account. -/
inductive PredictionMode where
  /-- Nothing is known of the caller; a conflict goes to the lowest alternative. -/
  | sll
  /-- A conflict is looked at again with the caller's stack. -/
  | ll
  /-- As before, reading on until an ambiguity is certain. -/
  | exactAmbiguity
deriving DecidableEq, Repr, Inhabited

/-- The settings of a recogniser. -/
structure Settings where
  /-- How alternatives are predicted. -/
  mode : PredictionMode := .ll
  /-- How deep a closure may nest. -/
  maxDepth : Nat := 10000
  /-- How many symbols a prediction may look at; zero for any number. -/
  maxSteps : Nat := 0
  /-- How many steps a run may take for each symbol of the input. -/
  patience : Nat := 100000
deriving DecidableEq, Repr, Inhabited

/-- How many steps a run over so many symbols may take.  A grammar can send a run in circles, in
which nothing is read; this is where it is cut off. -/
def Settings.fuel (s : Settings) (symbols : Nat) : Nat := (symbols + 1) * s.patience

/-- What a recogniser counts. -/
structure Counters where
  /-- Closures of single configurations. -/
  closures : Nat := 0
  /-- Automaton edges that were there. -/
  hits : Nat := 0
  /-- Automaton edges that had to be worked out. -/
  misses : Nat := 0
  /-- Predictions made without the caller's stack. -/
  sllPredictions : Nat := 0
  /-- Predictions that went on to the caller's stack. -/
  llPredictions : Nat := 0
deriving DecidableEq, Repr, Inhabited

/-- The share of edges that were there. -/
def Counters.hitRate (c : Counters) : String := Rate.toText c.hits (c.hits + c.misses)

end AdaptiveLL
