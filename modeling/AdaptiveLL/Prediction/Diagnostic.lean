import AdaptiveLL.Config

/-!
# Diagnostics

What a prediction reports when the tokens ahead do not settle a decision without the caller's
stack.  Every report names the decision, the range of tokens looked at, and the configurations
that led to it.
-/

namespace AdaptiveLL

/-- A report made while predicting. -/
inductive Diagnostic where
  /-- Several alternatives fit; whether that is certain. -/
  | ambiguity (decision start stop : Nat) (exact : Bool) (alts : AltSet) (configs : ConfigSet)
  /-- Alternatives are in conflict, and the caller's stack is going to be asked. -/
  | fullContext (decision start stop : Nat) (conflicting : AltSet) (configs : ConfigSet)
  /-- The caller's stack settled the decision. -/
  | contextSensitivity (decision start stop prediction : Nat) (configs : ConfigSet)

end AdaptiveLL
