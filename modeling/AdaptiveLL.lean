import AdaptiveLL.Alternatives
import AdaptiveLL.Automaton.Basic
import AdaptiveLL.Automaton.Cache
import AdaptiveLL.Command
import AdaptiveLL.Config
import AdaptiveLL.Conflict
import AdaptiveLL.DepthFirst
import AdaptiveLL.Drawing.Automaton
import AdaptiveLL.Drawing.Excerpt
import AdaptiveLL.Drawing.Network
import AdaptiveLL.Drawing.Text
import AdaptiveLL.Drawing.Trace
import AdaptiveLL.Error
import AdaptiveLL.Grammar.Basic
import AdaptiveLL.Grammar.Layout
import AdaptiveLL.Guard
import AdaptiveLL.Input.CharStream
import AdaptiveLL.Input.Position
import AdaptiveLL.Input.Token
import AdaptiveLL.Input.TokenStream
import AdaptiveLL.Invocation
import AdaptiveLL.Json.Basic
import AdaptiveLL.Json.Reader
import AdaptiveLL.Json.Shape
import AdaptiveLL.Lexing.Closure
import AdaptiveLL.Lexing.Hooks
import AdaptiveLL.Lexing.Lexer
import AdaptiveLL.Lexing.Matcher
import AdaptiveLL.Network.Basic
import AdaptiveLL.Network.Codec
import AdaptiveLL.Network.Link
import AdaptiveLL.Parsing.Parser
import AdaptiveLL.Parsing.Trace
import AdaptiveLL.Prediction.Classify
import AdaptiveLL.Prediction.Closure
import AdaptiveLL.Prediction.Diagnostic
import AdaptiveLL.Prediction.Predictor
import AdaptiveLL.Proofs.Automaton
import AdaptiveLL.Proofs.Cache
import AdaptiveLL.Proofs.Conflict
import AdaptiveLL.Proofs.Coupling
import AdaptiveLL.Proofs.DepthFirst
import AdaptiveLL.Proofs.Grammar.Decisions
import AdaptiveLL.Proofs.Grammar.Laid
import AdaptiveLL.Proofs.Grammar.LaidOut
import AdaptiveLL.Proofs.Grammar.Reading
import AdaptiveLL.Proofs.Grammar.Residual
import AdaptiveLL.Proofs.Grammar.Rules
import AdaptiveLL.Proofs.Input.TokenStream
import AdaptiveLL.Proofs.Lexing.Course
import AdaptiveLL.Proofs.Lexing.Faithful
import AdaptiveLL.Proofs.Lexing.History
import AdaptiveLL.Proofs.Lexing.Offsets
import AdaptiveLL.Proofs.Lexing.Thread
import AdaptiveLL.Proofs.Network.Chained
import AdaptiveLL.Proofs.Network.Link
import AdaptiveLL.Proofs.Network.Machine
import AdaptiveLL.Proofs.Prediction.Abstraction
import AdaptiveLL.Proofs.Prediction.Alike
import AdaptiveLL.Proofs.Prediction.ClosureAlike
import AdaptiveLL.Proofs.Prediction.ClosureSpots
import AdaptiveLL.Proofs.Prediction.ConcludeAlike
import AdaptiveLL.Proofs.Prediction.Faithful
import AdaptiveLL.Proofs.Prediction.History
import AdaptiveLL.Proofs.Prediction.LookAheadAlike
import AdaptiveLL.Proofs.Prediction.ReachAlike
import AdaptiveLL.Proofs.Prediction.ReachSpots
import AdaptiveLL.Proofs.Prediction.Recomputing
import AdaptiveLL.Proofs.Prediction.Spots
import AdaptiveLL.Proofs.Prediction.Steps
import AdaptiveLL.Proofs.Prediction.Verdict
import AdaptiveLL.Proofs.Run
import AdaptiveLL.Proofs.StackGraph.Alike
import AdaptiveLL.Proofs.StackGraph.Covers
import AdaptiveLL.Proofs.StackGraph.History
import AdaptiveLL.Proofs.StackGraph.Merge
import AdaptiveLL.Proofs.StackGraph.Requests
import AdaptiveLL.Proofs.StackGraph.Sound
import AdaptiveLL.Proofs.StackGraph.Stacks
import AdaptiveLL.Proofs.StackGraph.Wildcard
import AdaptiveLL.Rate
import AdaptiveLL.Settings
import AdaptiveLL.StackGraph.Basic
import AdaptiveLL.StackGraph.Merge
import AdaptiveLL.StackGraph.Stacks
import AdaptiveLL.StateKind
import AdaptiveLL.Symbol.Basic
import AdaptiveLL.Symbol.IntervalSet
import AdaptiveLL.Workspace
import AdaptiveLL.Proofs.Grammar.Unguarded
import AdaptiveLL.Proofs.Prediction.Frame
import AdaptiveLL.Proofs.Parsing.Walk
import AdaptiveLL.Proofs.Parsing.Soundness
import AdaptiveLL.Proofs.Grammar.Sentence
import AdaptiveLL.Proofs.Prediction.Plain
import AdaptiveLL.Proofs.Network.Finishing
import AdaptiveLL.Proofs.Prediction.Offers
import AdaptiveLL.Proofs.Prediction.StateOffers
import AdaptiveLL.Proofs.Prediction.AutomatonOffers
import AdaptiveLL.Proofs.Prediction.FullContext
import AdaptiveLL.Proofs.Prediction.LowestViable
import AdaptiveLL.Proofs.Lexing.Within
import AdaptiveLL.Proofs.Lexing.Bounds
import AdaptiveLL.Proofs.Command
import AdaptiveLL.Proofs.Lexing.Positions
import AdaptiveLL.Proofs.Lexing.Requests
import AdaptiveLL.Proofs.Prediction.Modes
import AdaptiveLL.Proofs.Json
import AdaptiveLL.Proofs.Network.Relinking
import AdaptiveLL.Proofs.Network.Codec
import AdaptiveLL.Proofs.Parsing.Prospects
import AdaptiveLL.Proofs.Parsing.Completeness
import AdaptiveLL.Proofs.Prediction.Entries
import AdaptiveLL.Proofs.Prediction.OverCaller
import AdaptiveLL.Proofs.Prediction.AtEnd
import AdaptiveLL.Proofs.Prediction.Termination
import AdaptiveLL.Proofs.Fuel
import AdaptiveLL.Proofs.Lexing.Termination
import AdaptiveLL.Proofs.Lexing.Greedy
import AdaptiveLL.Proofs.Lexing.Spots
import AdaptiveLL.Proofs.Lexing.Inside
import AdaptiveLL.Proofs.Lexing.LongestMatch
import AdaptiveLL.Proofs.Lexing.Unasked
import AdaptiveLL.Proofs.Lexing.MaximalMunch
import AdaptiveLL.Proofs.Parsing.TwoStage
import AdaptiveLL.Proofs.Prediction.Exact
import AdaptiveLL.Proofs.DepthFirst.Recursion
import AdaptiveLL.Proofs.Prediction.ClosureRecursion
import AdaptiveLL.Proofs.Prediction.Resting
import AdaptiveLL.Proofs.Prediction.Idempotent
import AdaptiveLL.Proofs.Guard
import AdaptiveLL.Proofs.Prediction.Numbering
import AdaptiveLL.Proofs.Prediction.Admitted
import AdaptiveLL.Proofs.Prediction.InRange
import AdaptiveLL.Proofs.Lexing.Hearing
import AdaptiveLL.Proofs.Lexing.Replaying
import AdaptiveLL.Proofs.Lexing.Terminator
import AdaptiveLL.Proofs.Prediction.Reports
import AdaptiveLL.Proofs.Prediction.StepLimit
import AdaptiveLL.Proofs.Prediction.Repeated
import AdaptiveLL.Proofs.Prediction.Reordering
import AdaptiveLL.Proofs.Guard.Canonical
import AdaptiveLL.Proofs.Network.Follows
import AdaptiveLL.Proofs.Grammar.Outcome
import AdaptiveLL.Proofs.Grammar.Regular
import AdaptiveLL.Proofs.Precedence.Parsing
import AdaptiveLL.Proofs.Symbol.Ranges
import AdaptiveLL.Proofs.Symbol.Additions
import AdaptiveLL.Proofs.Network.Sets
import AdaptiveLL.Proofs.Lexing.Recovering
import AdaptiveLL.Proofs.Config
import AdaptiveLL.Automaton.Hashed
import AdaptiveLL.Proofs.Automaton.Hashed
import AdaptiveLL.Proofs.Command.Replay
import AdaptiveLL.Proofs.StackGraph.Text
