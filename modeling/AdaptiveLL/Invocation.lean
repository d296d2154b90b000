/-!
# Rule invocations

The stack of rules that are being recognised, outermost first.  Each entry says which rule runs,
which state of the network called it, and with which precedence.
-/

namespace AdaptiveLL

/-- A rule that is being recognised. -/
structure Invocation where
  /-- The rule. -/
  rule : Nat
  /-- The state that called it; none for the rule that recognition started with. -/
  caller : Option Nat
  /-- The precedence passed to it. -/
  precedence : Int
deriving DecidableEq, Repr, Inhabited

/-- The rule that recognition starts with. -/
def Invocation.root (rule : Nat) : Invocation := ⟨rule, none, 0⟩

/-- A rule called from a state. -/
def Invocation.called (rule caller : Nat) (precedence : Int) : Invocation :=
  ⟨rule, some caller, precedence⟩

end AdaptiveLL
