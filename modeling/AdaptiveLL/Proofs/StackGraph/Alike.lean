import Mathlib
import AdaptiveLL.Network.Basic
import AdaptiveLL.Proofs.Run
import AdaptiveLL.Proofs.StackGraph.History

/-! # Two graphs side by side

Two recognisers keep their stacks in graphs of their own, and name the same stacks differently.
`SameStacks` says that two nodes, each of its own graph, stand for the same stacks.  Whatever is
done with such nodes gives such nodes again: pushing, merging, taking a node apart.  In particular
two nodes of one graph are equal exactly if their counterparts are (`SameStacks.eq_iff`).

`Paired` is how the two graphs change meanwhile: they stay truthful and only grow.
-/
namespace AdaptiveLL
namespace StackGraph

/-- Nodes of two graphs that stand for the same stacks. -/
structure SameStacks (g h : StackGraph) (a b : StackRef) : Prop where
  left : g.knows a
  right : h.knows b
  same : g.stackSet a = h.stackSet b

/-- Two graphs that have grown from two others, and are truthful. -/
structure Paired (g h g' h' : StackGraph) : Prop where
  left : g'.Truthful
  right : h'.Truthful
  leftGrows : Extends g g'
  rightGrows : Extends h h'

theorem Paired.refl {g h : StackGraph} (hg : g.Truthful) (hh : h.Truthful) : Paired g h g h :=
  ⟨hg, hh, Extends.refl g, Extends.refl h⟩

theorem Paired.trans {g h g' h' g'' h'' : StackGraph} (p : Paired g h g' h')
    (q : Paired g' h' g'' h'') : Paired g h g'' h'' :=
  ⟨q.left, q.right, p.leftGrows.trans q.leftGrows, p.rightGrows.trans q.rightGrows⟩

namespace SameStacks
variable {g h g' h' : StackGraph} {a b a' b' : StackRef}

theorem refl (ha : g.knows a) : SameStacks g g a a := ⟨ha, ha, rfl⟩

theorem symm (s : SameStacks g h a b) : SameStacks h g b a := ⟨s.right, s.left, s.same.symm⟩

theorem trans {k : StackGraph} {c : StackRef} (s : SameStacks g h a b) (t : SameStacks h k b c) :
    SameStacks g k a c :=
  ⟨s.left, t.right, s.same.trans t.same⟩

/-- Nodes go on to stand for the same stacks while the graphs grow. -/
theorem mono (hg : g.Truthful) (hh : h.Truthful) (p : Paired g h g' h')
    (s : SameStacks g h a b) : SameStacks g' h' a b where
  left := p.leftGrows.knows s.left
  right := p.rightGrows.knows s.right
  same := by
    rw [p.leftGrows.stackSet hg.toSound p.left.toSound s.left,
      p.rightGrows.stackSet hh.toSound p.right.toSound s.right, s.same]

theorem bottom (hg : g.Truthful) (hh : h.Truthful) :
    SameStacks g h StackRef.bottom StackRef.bottom :=
  ⟨hg.knows_bottom, hh.knows_bottom, by rw [hg.stackSet_bottom, hh.stackSet_bottom]⟩

/-- Two nodes are one exactly if their counterparts are. -/
theorem eq_iff (hg : g.Truthful) (hh : h.Truthful) (s : SameStacks g h a b)
    (s' : SameStacks g h a' b') : a = a' ↔ b = b' := by
  constructor
  · rintro rfl
    exact hh.eq_of_stackSet_eq s.right s'.right (s.same.symm.trans s'.same)
  · rintro rfl
    exact hg.eq_of_stackSet_eq s.left s'.left (s.same.trans s'.same.symm)

theorem isBottom_eq (hg : g.Truthful) (hh : h.Truthful) (s : SameStacks g h a b) :
    a.isBottom = b.isBottom := by
  rw [Bool.eq_iff_iff, isBottom_iff, isBottom_iff]
  exact s.eq_iff hg hh (bottom hg hh)

/-- Taken apart, such nodes agree frame by frame. -/
theorem frames (hg : g.Truthful) (hh : h.Truthful) (s : SameStacks g h a b) :
    List.Forall₂ (fun f f' => f.returnTo = f'.returnTo ∧ SameStacks g h f.parent f'.parent)
      (g.frames a) (h.frames b) := by
  refine List.forall₂_iff_get.mpr ⟨?_, fun i hi hj => ?_⟩
  · exact (frames_agree hg.toSound hh.toSound s.left s.right s.same).length_eq
  · obtain ⟨hx, hs⟩ := (List.forall₂_iff_get.mp
      (frames_agree hg.toSound hh.toSound s.left s.right s.same)).2 i hi hj
    exact ⟨hx, hg.knows_parent s.left (List.get_mem _ _), hh.knows_parent s.right (List.get_mem _ _),
      hs⟩

theorem hasEmptyStack_eq (hg : g.Truthful) (hh : h.Truthful) (s : SameStacks g h a b) :
    g.hasEmptyStack a = h.hasEmptyStack b := by
  have hret : (g.frames a).map Frame.returnTo = (h.frames b).map Frame.returnTo := by
    rw [← List.forall₂_eq_eq_eq, List.forall₂_map_left_iff, List.forall₂_map_right_iff]
    exact (s.frames hg hh).imp fun _ _ h => h.1
  have hlast : ((g.frames a).getLast?).map Frame.returnTo =
      ((h.frames b).getLast?).map Frame.returnTo := by
    rw [← List.getLast?_map, ← List.getLast?_map, hret]
  unfold hasEmptyStack
  cases hga : (g.frames a).getLast? <;> cases hhb : (h.frames b).getLast? <;>
    simp_all

/-- Pushing one state on both. -/
theorem push (hg : g.Truthful) (hh : h.Truthful) (s : SameStacks g h a b) (x : Nat) :
    SameStacks (g.push a (some x)).2 (h.push b (some x)).2 (g.push a (some x)).1
        (h.push b (some x)).1 ∧
      Paired g h (g.push a (some x)).2 (h.push b (some x)).2 := by
  have kg := hg.push s.left (some x)
  have kh := hh.push s.right (some x)
  refine ⟨⟨kg.known, kh.known, ?_⟩, kg.truthful, kh.truthful, kg.grows, kh.grows⟩
  rw [hg.stackSet_push s.left, hh.stackSet_push s.right, s.same]

/-- Merging two nodes on both sides. -/
theorem merge (hg : g.Truthful) (hh : h.Truthful) (s : SameStacks g h a b)
    (s' : SameStacks g h a' b') (w : Bool) :
    SameStacks (g.merge a a' w).2 (h.merge b b' w).2 (g.merge a a' w).1 (h.merge b b' w).1 ∧
      Paired g h (g.merge a a' w).2 (h.merge b b' w).2 := by
  have mg := hg.merge s.left s'.left w
  have mh := hh.merge s.right s'.right w
  refine ⟨⟨mg.known, mh.known, ?_⟩, mg.truthful, mh.truthful, mg.grows, mh.grows⟩
  rw [mg.joined, mh.joined, s.same, s'.same]

/-- A stack of rule invocations becomes such nodes, or is refused on both sides. -/
theorem pushInvocations_go (n : Network) (stack : List Invocation) (hg : g.Truthful)
    (hh : h.Truthful) (s : SameStacks g h a b) :
    Matches (fun r g' r' h' => Paired g h g' h' ∧ SameStacks g' h' r r') (Paired g h)
      (pushInvocations.go n a g stack) (pushInvocations.go n b h stack) := by
  induction stack generalizing g h a b with
  | nil => exact .ok ⟨Paired.refl hg hh, s⟩
  | cons frame rest ih =>
    rw [pushInvocations.go, pushInvocations.go]
    cases frame.caller with
    | none => exact ih hg hh s
    | some caller =>
      cases hf : n.follow caller with
      | error e =>
        simp only [hf]
        exact .error e (Paired.refl hg hh)
      | ok follow =>
        simp only [hf]
        obtain ⟨s', p⟩ := s.push hg hh follow
        refine (ih p.left p.right s').imp (fun _ _ _ _ hr => ?_) fun _ _ hr => p.trans hr
        exact ⟨p.trans hr.1, hr.2⟩

end SameStacks
end StackGraph
end AdaptiveLL
