import AdaptiveLL.StackGraph.Basic

/-!
# Merging stacks

`merge` gives the node for the stacks of two nodes.  Their frames are combined in order, and
frames that return to the same state become one, over the merge of their parents.

With `wildcard` the empty stack stands for every stack, because nothing is known of the caller;
it then absorbs whatever it is merged with.  Without it the empty stack is a stack like others.

Merges are remembered per unordered pair of nodes.  A merge goes down from nodes to their parents,
so there are no more levels than nodes.
-/

namespace AdaptiveLL
namespace StackGraph

/-- Combines two lists of frames in ascending order of their return states.  Where both return to
the same state, `mergeParents` joins what is below. -/
def mergeFrames (mergeParents : StackRef → StackRef → StateM StackGraph StackRef) :
    List Frame → List Frame → StateM StackGraph (List Frame)
  | [], bs => pure bs
  | as, [] => pure as
  | a :: as, b :: bs =>
    if a.returnTo = b.returnTo then do
      let parent ← mergeParents a.parent b.parent
      let rest ← mergeFrames mergeParents as bs
      pure (⟨a.returnTo, parent⟩ :: rest)
    else if Frame.before a.returnTo b.returnTo then do
      let rest ← mergeFrames mergeParents as (b :: bs)
      pure (a :: rest)
    else do
      let rest ← mergeFrames mergeParents (a :: as) bs
      pure (b :: rest)
termination_by as bs => as.length + bs.length

/-- The memo's key for a merge. -/
def mergeKey (a b : StackRef) (wildcard : Bool) : MergeKey :=
  ⟨min a.index b.index, max a.index b.index, wildcard⟩

/-- The merge of two nodes, through at most `fuel` levels of parents. -/
def mergeWithin (wildcard : Bool) : Nat → StackRef → StackRef → StateM StackGraph StackRef
  | 0, a, _ => pure a
  | fuel + 1, a, b =>
    if a = b then pure a
    else do
      let key := mergeKey a b wildcard
      match (← get).memo[key]? with
      | some merged =>
        modify fun g => { g with hits := g.hits + 1 }
        pure merged
      | none =>
        modify fun g => { g with misses := g.misses + 1 }
        let merged ←
          if wildcard && (a.isBottom || b.isBottom) then pure StackRef.bottom
          else do
            let g ← get
            let frames ← mergeFrames (mergeWithin wildcard fuel) (g.frames a) (g.frames b)
            modifyGet fun g => g.intern frames
        modify fun g => { g with memo := g.memo.insert key merged }
        pure merged

/-- The node for the stacks of `a` and of `b`.  With `wildcard` the empty stack absorbs the
other. -/
def merge (g : StackGraph) (a b : StackRef) (wildcard : Bool) : StackRef × StackGraph :=
  (mergeWithin wildcard (g.size + 1) a b).run g

end StackGraph
end AdaptiveLL
