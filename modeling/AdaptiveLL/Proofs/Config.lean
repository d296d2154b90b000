import Mathlib
import AdaptiveLL.Config

/-! # When sets of configurations count as the same

Two sets count as the same if they have the same content: configurations that are the same one by one,
their reach apart, and the same records of the set as a whole.  So this is an equivalence, and neither
seals nor the kind of set matter for it.
-/
namespace AdaptiveLL
namespace ConfigSet
variable {s t u : ConfigSet}

/-- What counts when sets are compared. -/
def content (s : ConfigSet) : Bool × Bool × Bool × Option Nat × Option AltSet × List Config :=
  (s.fullContext, s.hasGuards, s.dipsOutside, s.uniqueAlt, s.conflictingAlts,
    s.toList.map Config.identity)

theorem same_iff : s.same t ↔ s.content = t.content := by
  simp only [same, sameConfigs, content, Bool.and_eq_true, decide_eq_true_eq, Prod.mk.injEq, and_assoc]

theorem identity_of_same (h : s.same t) :
    s.toList.map Config.identity = t.toList.map Config.identity :=
  congrArg (fun content => content.2.2.2.2.2) (same_iff.mp h)

theorem same_refl (s : ConfigSet) : s.same s := same_iff.mpr rfl

theorem same_symm (h : s.same t) : t.same s := same_iff.mpr (same_iff.mp h).symm

theorem same_trans (hst : s.same t) (htu : t.same u) : s.same u :=
  same_iff.mpr ((same_iff.mp hst).trans (same_iff.mp htu))

/-- Seals do not count. -/
theorem same_publish (s : ConfigSet) : s.same s.publish := same_iff.mpr rfl

end ConfigSet
end AdaptiveLL
