import AdaptiveLL.StackGraph.Basic

/-!
# The stacks of a node

`stacksOf` lists the call stacks that a node stands for, each from its top down; `toText` writes
them as nested lists.  Both go down from nodes to their parents, so there are no more levels than
nodes.
-/

namespace AdaptiveLL
namespace StackGraph

/-- The stacks of a node, through at most `fuel` levels of parents. -/
def stacksWithin (g : StackGraph) : Nat → StackRef → List (List Nat)
  | 0, _ => []
  | fuel + 1, r =>
    (g.frames r).flatMap fun frame =>
      match frame.returnTo with
      | none => [[]]
      | some state => (stacksWithin g fuel frame.parent).map (state :: ·)

/-- The stacks of a node, each from its top down. -/
def stacksOf (g : StackGraph) (r : StackRef) : List (List Nat) := g.stacksWithin (g.size + 1) r

/-- The text of a node, through at most `fuel` levels of parents. -/
def textWithin (g : StackGraph) : Nat → StackRef → String
  | 0, _ => "$"
  | fuel + 1, r =>
    if r.isBottom then "$"
    else
      let entries := (g.frames r).map fun frame =>
        match frame.returnTo with
        | none => "$"
        | some state =>
          if frame.parent.isBottom then toString state
          else toString state ++ " " ++ textWithin g fuel frame.parent
      "[" ++ ", ".intercalate entries ++ "]"

/-- The text of a node: `$`, or its frames in brackets, each followed by the text of its parent
unless that is the empty stack. -/
def toText (g : StackGraph) (r : StackRef) : String := g.textWithin (g.size + 1) r

end StackGraph
end AdaptiveLL
