import AdaptiveLL.Proofs.StackGraph.Wildcard

/-! # Sets of stacks as a semilattice

Joining sets of stacks is associative, commutative and idempotent, with a wildcard and without.  So sets of
stacks are ordered by what joining adds nothing to, and the join of several sets is their least upper bound
(`Stacks`), which does not depend on the order in which they are joined, nor on how often.

A node stands for such a set (`meaning`), no matter what is added to the graph later
(`Extends.meaning`), and a merge stands for the join (`Truthful.meaning_merge`).
-/
namespace AdaptiveLL
namespace StackGraph

variable {w : Bool}

/-- Sets of stacks, to be joined with or without a wildcard.  A node stands for one stack at least. -/
@[ext] structure Stacks (wildcard : Bool) where
  members : Set (List Nat)
  nonempty : members.Nonempty

namespace Stacks

instance : Max (Stacks w) :=
  ⟨fun A B => ⟨Joined w A.members B.members, joined_nonempty A.nonempty B.nonempty⟩⟩

theorem members_sup (A B : Stacks w) : (A ⊔ B).members = Joined w A.members B.members := rfl

theorem sup_assoc (A B C : Stacks w) : A ⊔ B ⊔ C = A ⊔ (B ⊔ C) := by
  refine Stacks.ext ?_
  cases w with
  | false => simp only [members_sup, joined_false, Set.union_assoc]
  | true => exact joined_assoc A.nonempty B.nonempty C.nonempty

instance : SemilatticeSup (Stacks w) :=
  SemilatticeSup.mk' (fun A B => Stacks.ext (joined_comm w A.members B.members)) sup_assoc
    fun A => Stacks.ext (joined_self w A.members)

end Stacks

/-! ## The stacks of a node -/

open Classical in
/-- The stacks of a node as they are joined. -/
noncomputable def meaning (w : Bool) (g : StackGraph) (r : StackRef) : Stacks w :=
  if h : (g.stackSet r).Nonempty then ⟨g.stackSet r, h⟩ else ⟨{[]}, Set.singleton_nonempty []⟩

variable {g h : StackGraph} {a b r : StackRef}

theorem Sound.members_meaning (hg : g.Sound) (hr : g.knows r) :
    (g.meaning w r).members = g.stackSet r := by
  rw [meaning, dif_pos (hg.stackSet_nonempty hr)]

theorem Extends.meaning (e : Extends g h) (hg : g.Sound) (hh : h.Sound) (hr : g.knows r) :
    h.meaning w r = g.meaning w r := by
  refine Stacks.ext ?_
  rw [hh.members_meaning (e.knows hr), hg.members_meaning hr, e.stackSet hg hh hr]

/-- Nodes that stand for the same stacks are one. -/
theorem Sound.eq_of_meaning_eq (hg : g.Sound) (ha : g.knows a) (hb : g.knows b)
    (heq : g.meaning w a = g.meaning w b) : a = b := by
  refine hg.eq_of_stackSet_eq ha hb ?_
  rw [← hg.members_meaning (w := w) ha, heq, hg.members_meaning hb]

theorem Truthful.meaning_merge (hg : g.Truthful) (ha : g.knows a) (hb : g.knows b) :
    (g.merge a b w).2.meaning w (g.merge a b w).1 = g.meaning w a ⊔ g.meaning w b := by
  have m := hg.merge ha hb w
  refine Stacks.ext ?_
  rw [m.truthful.members_meaning m.known, m.joined, Stacks.members_sup, hg.members_meaning ha,
    hg.members_meaning hb]

end StackGraph
end AdaptiveLL
