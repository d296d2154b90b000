import AdaptiveLL.StackGraph.Basic

/-!
# Workspaces

What following configurations changes besides the configurations: the stack graph gets nodes, the
author's callbacks change their state, and closures are counted.
-/

namespace AdaptiveLL

/-- What closures change besides their result. -/
structure Workspace (σ : Type) where
  /-- The stacks. -/
  graph : StackGraph
  /-- The state of the author's callbacks. -/
  author : σ
  /-- How many configurations were closed. -/
  closures : Nat := 0

end AdaptiveLL
