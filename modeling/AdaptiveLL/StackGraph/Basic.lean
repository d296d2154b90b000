import Std.Data.HashMap
import AdaptiveLL.Error
import AdaptiveLL.Rate

/-!
# The stack graph

While predicting, very many call stacks are followed at once.  They are kept in one graph: a node
stands for a set of stacks, as a list of frames, and each frame is a state to return to on top
of the stacks of another node.  Nodes are interned, so that equal lists of frames are one node
and a node can be named by its position (`StackRef`).

Position zero is the empty stack.  Its only frame has no state to return to; a frame like that
also ends the list of a node whose set contains the empty stack.  In a graph that was built with
the operations of this module

* the frames of a node are in strictly ascending order of their return states, `$` (no state)
  being the largest;
* every frame's parent has a smaller position than the node;
* no node but the first consists of a `$` frame alone.

`StackGraph` also counts how often a merge was answered from its memo; see the module on merging.
-/

namespace AdaptiveLL

/-- The name of a node: its position in the graph. -/
structure StackRef where
  /-- The position. -/
  index : Nat
deriving DecidableEq, Hashable, Repr, Inhabited

namespace StackRef

/-- The empty stack. -/
def bottom : StackRef := ⟨0⟩

/-- Whether this is the empty stack. -/
def isBottom (r : StackRef) : Bool := r.index = 0

/-- `$` for the empty stack, and the number of any other node. -/
def toText (r : StackRef) : String := nodeText r.index

end StackRef

/-- The top of some stacks of a node: where to return to, and the stacks below. -/
structure Frame where
  /-- The state to return to; none at the end of a stack. -/
  returnTo : Option Nat
  /-- The stacks below. -/
  parent : StackRef
deriving DecidableEq, Hashable, Repr, Inhabited

namespace Frame

/-- The end of a stack. -/
def root : Frame := ⟨none, StackRef.bottom⟩

/-- Return states are ordered by number, and no state comes last. -/
def before : Option Nat → Option Nat → Bool
  | some a, some b => a < b
  | some _, none => true
  | none, _ => false

end Frame

/-- A key of the merge memo: the two nodes, the smaller position first, and the kind of merge. -/
structure MergeKey where
  /-- The smaller position. -/
  low : Nat
  /-- The larger position. -/
  high : Nat
  /-- Whether the empty stack stood for every stack. -/
  wildcard : Bool
deriving DecidableEq, Hashable

/-- Interned nodes with a memo of merges. -/
structure StackGraph where
  /-- The frames of each node. -/
  nodes : Array (List Frame)
  /-- The node with given frames. -/
  index : Std.HashMap (List Frame) StackRef
  /-- Merges already made. -/
  memo : Std.HashMap MergeKey StackRef
  /-- How many merges the memo has answered. -/
  hits : Nat
  /-- How many merges were worked out. -/
  misses : Nat

namespace StackGraph

/-- The graph that holds the empty stack only. -/
def empty : StackGraph where
  nodes := #[[Frame.root]]
  index := (∅ : Std.HashMap (List Frame) StackRef).insert [Frame.root] StackRef.bottom
  memo := ∅
  hits := 0
  misses := 0

instance : Inhabited StackGraph := ⟨empty⟩

/-- The number of nodes. -/
def size (g : StackGraph) : Nat := g.nodes.size

/-- The frames of a node. -/
def frames (g : StackGraph) (r : StackRef) : List Frame := g.nodes[r.index]?.getD [Frame.root]

/-- Whether the empty stack is among the stacks of a node. -/
def hasEmptyStack (g : StackGraph) (r : StackRef) : Bool :=
  match (g.frames r).getLast? with
  | some frame => frame.returnTo.isNone
  | none => false

/-- The node with these frames, added if it is new.  Frames that say no more than "the end of the
stack" are the empty stack. -/
def intern (g : StackGraph) (frames : List Frame) : StackRef × StackGraph :=
  match frames with
  | [] => (StackRef.bottom, g)
  | [⟨none, _⟩] => (StackRef.bottom, g)
  | _ =>
    match g.index[frames]? with
    | some r => (r, g)
    | none =>
      let r : StackRef := ⟨g.nodes.size⟩
      (r, { g with nodes := g.nodes.push frames, index := g.index.insert frames r })

/-- The stacks of `parent` with a return state on top; the empty stack if there is none. -/
def push (g : StackGraph) (parent : StackRef) (returnTo : Option Nat) : StackRef × StackGraph :=
  g.intern [⟨returnTo, parent⟩]

/-- Forgets the merges made so far, but not how many there were. -/
def forgetMerges (g : StackGraph) : StackGraph := { g with memo := ∅ }

/-- The share of merges that the memo has answered. -/
def hitRate (g : StackGraph) : String := Rate.toText g.hits (g.hits + g.misses)

/-! ## Adding nodes from outside -/

/-- A node as a caller describes it. -/
inductive NodeDraft where
  /-- The empty stack. -/
  | bottom
  /-- One frame. -/
  | frame (parent : StackRef) (returnTo : Option Nat)
  /-- Parents and return states, side by side. -/
  | frames (parents : List StackRef) (returns : List (Option Nat))
deriving DecidableEq, Repr

/-- Whether a list of return states is strictly ascending. -/
def strictlyAscending : List (Option Nat) → Bool
  | a :: b :: rest => Frame.before a b && strictlyAscending (b :: rest)
  | _ => true

/-- Whether a node is in the graph. -/
def knows (g : StackGraph) (r : StackRef) : Bool := r.index < g.size

/-- The first thing that is wrong with a description. -/
def fault? (g : StackGraph) : NodeDraft → Option StackFault
  | .bottom => none
  | .frame parent _ => if g.knows parent then none else some (.unknownParent parent.index)
  | .frames parents returns =>
    if returns.isEmpty then some .noFrames
    else if parents.length ≠ returns.length then some (.ragged parents.length returns.length)
    else if !strictlyAscending returns then some .notAscending
    else
      match parents.find? fun p => !g.knows p with
      | some p => some (.unknownParent p.index)
      | none =>
        match returns.getLast?, parents.getLast? with
        | some none, some p => if p.isBottom then none else some .bottomWithParent
        | _, _ => none

/-- The frames of a description. -/
def NodeDraft.toFrames : NodeDraft → List Frame
  | bottom => [Frame.root]
  | frame parent returnTo => [⟨returnTo, parent⟩]
  | frames parents returns => List.zipWith (fun p r => ⟨r, p⟩) parents returns

/-- Adds the node that a caller describes. -/
def add (g : StackGraph) (draft : NodeDraft) : Except RecognitionError (StackRef × StackGraph) :=
  match g.fault? draft with
  | some fault => .error (.invalidStack fault)
  | none => .ok (g.intern draft.toFrames)

end StackGraph

end AdaptiveLL
