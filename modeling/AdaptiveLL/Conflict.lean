import AdaptiveLL.Config
import AdaptiveLL.Network.Basic
import AdaptiveLL.Settings

/-!
# When to stop reading

While nothing is known of the caller, a prediction stops once every configuration has finished the
rule it began in, or once reading on cannot settle the conflict: alternatives are in conflict
somewhere, and no state is left to one alternative only.
-/

namespace AdaptiveLL
namespace ConfigSet

/-- Whether some configuration is at the end of a rule. -/
def hasStop (n : Network) (s : ConfigSet) : Bool := s.toList.any fun c => n.isStop c.state

/-- Whether every configuration is at the end of a rule. -/
def allStop (n : Network) (s : ConfigSet) : Bool := s.toList.all fun c => n.isStop c.state

/-- The configurations without their guards, stacks merged anew. -/
def withoutGuards (s : ConfigSet) (g : StackGraph) : ConfigSet × StackGraph :=
  (empty s.fullContext).insertAll (s.toList.map fun c => { c with guard := .always }) g

/-- Whether to stop reading.  Where the caller's stack will not be asked, guards do not keep
configurations apart. -/
def stopsReading (mode : PredictionMode) (n : Network) (s : ConfigSet) (g : StackGraph) :
    Bool × StackGraph :=
  if s.allStop n then (true, g)
  else
    let (s, g) := if mode = .sll && s.hasGuards then s.withoutGuards g else (s, g)
    (Conflict.hasContested s.conflictSubsets && !s.hasStateWithOneAlt, g)

end ConfigSet
end AdaptiveLL
